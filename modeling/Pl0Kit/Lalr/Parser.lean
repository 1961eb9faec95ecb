import Pl0Kit.Lalr.Spec
import Pl0Kit.Lalr.SavedTable
import Pl0Kit.Reading

/-!
# Running tables

A parser shifts tokens and reduces rules as its tables say.  On a syntax error it calls the
function for errors once, then drops states until the `error` symbol can be shifted; three tokens
have to be shifted before the function is called again.

One step takes one action; a run is steps until one gives a result.  Stacks and text printed so far
stay when a step faults.
-/

namespace Pl0Kit.Lalr

/-- A symbol on the stack or ahead: a token, or what a rule or an error has left.  Lines and
positions are there only if something set them. -/
structure Sym where
  kind : String
  isToken : Bool := false
  value : Option Value := none
  line : Option Int := none
  endLine : Option Int := none
  pos : Option Int := none
  endPos : Option Int := none
  deriving Inhabited

namespace Sym

def ofToken (kind : String) (value : Value) (line pos : Int) : Sym :=
  { kind, isToken := true, value := some value, line := some line, pos := some pos }

def asValue (s : Sym) : Value :=
  if s.isToken then .token s.kind (s.value.getD .none) (s.line.getD 0) (s.pos.getD 0)
  else .symbol s.kind

def text (s : Sym) : String := s.asValue.text

def atEnd : Sym := { kind := endSymbol }

end Sym

structure Delivery where
  token : Option Sym
  report : String := ""
  line : Int
  pos : Int
  deriving Inhabited

structure Feed where
  ahead : List Delivery := []
  line : Int := 1
  pos : Int := 0
  /-- how far the position moves when a token is asked for after the end -/
  beyond : Int := 0
  deriving Inhabited

namespace Feed

/-- tokens given as a list; the reader stands one past the last token's position -/
def ofTokens (ts : List (String × Value × Int × Int)) : Feed :=
  { ahead := ts.map fun (k, v, l, p) =>
    { token := some (.ofToken k v l p), line := l, pos := p + 1 } }

def ofText (s : String) : Feed :=
  { ahead := (readText 1 s.toList).map fun r =>
      { token := r.token.map fun t => .ofToken t.kind.label t.payload.toValue t.line t.pos
        report := r.report, line := r.line, pos := r.pos }
    beyond := 1 }

def next (f : Feed) : Option Sym × String × Feed :=
  match f.ahead with
  | d :: rest => (d.token, d.report, { f with ahead := rest, line := d.line, pos := d.pos })
  | [] => (none, "", { f with pos := f.pos + f.beyond })

end Feed

structure ParserProduction where
  text : String
  /-- how the production is listed -/
  shown : String
  name : String
  length : Nat
  func : Option String
  line : Option Int
  /-- what the function's name stands for -/
  call : Option Entry := none
  deriving Inhabited

structure Parser where
  productions : Array ParserProduction
  actions : Ordered Nat ActionRow
  gotos : Ordered Nat GotoRow
  onError : Option Entry
  deriving Inhabited

/-- how a parser is run: with a trace of its steps, with lines and positions for rules -/
structure Mode where
  trace : Bool := false
  track : Bool := false
  deriving Inhabited

structure Engine where
  feed : Feed
  /-- states, the current one first -/
  states : List Nat := [0]
  /-- symbols, the last one first -/
  syms : List Sym := [.atEnd]
  state : Nat := 0
  lookahead : Option Sym := none
  /-- symbols to be read again, the next one first -/
  pushed : List Sym := []
  errorCount : Nat := 0
  recovered : Bool := false
  output : String := ""
  trace : String := ""
  deriving Inhabited

abbrev EngineM (α : Type) := ExceptT Fault (StateM Engine) α

/-- tokens that have to be shifted before errors are reported again -/
def recoveryLength : Nat := 3

namespace Engine

def print (s : String) : EngineM Unit := modify fun e => { e with output := e.output ++ s }

def logTrace (s : String) : EngineM Unit := modify fun e => { e with trace := e.trace ++ s ++ "\n" }

def readToken : EngineM (Option Sym) := do
  let e ← get
  let (t, report, feed) := e.feed.next
  set { e with feed, output := e.output ++ report }
  pure t

def valueOf (s : Sym) : EngineM Value :=
  match s.value with
  | some v => pure v
  | none => throw .noSuchField

/-! ## texts of the trace -/

def typeWord : Value → String
  | .none => "NoneType"
  | .bool _ => "bool"
  | .int _ => "int"
  | .str _ => "str"
  | .list _ => "list"
  | .tuple _ => "tuple"
  | .dict _ => "dict"
  | .procedure .. => "Procedure"
  | .token .. => "LexToken"
  | .symbol _ => "YaccSymbol"

def handle (v : Value) : String := "<" ++ typeWord v ++ " @ 0x>"

def resultText (v : Value) : String :=
  let s := v.quoted
  let s := if s.length > 40 then String.ofList (s.toList.take 40) ++ " ..." else s
  handle v ++ " (" ++ s ++ ")"

def entryText (v : Value) : String :=
  let s := v.quoted
  if s.length < 16 then s else handle v

def situation (e : Engine) : String :=
  let kinds := (e.syms.reverse.map (·.kind)).drop 1
  let s := Text.joinWith " " kinds ++ " . " ++ (e.lookahead.map Sym.text).getD "None"
  String.ofList (Text.trimLeft s.toList)

/-! ## reducing -/

inductive Call where
  | done (result : Sym)
  | syntaxError

/-- line, lines, position and positions of a symbol; 0 where nothing is known -/
def spanOf (s : Sym) : Value :=
  let line := s.line.getD 0
  let pos := s.pos.getD 0
  .list [.int line, .list [.int line, .int (s.endLine.getD line)],
    .int pos, .list [.int pos, .int (s.endPos.getD pos)]]

def makeTree (result : Sym) (parts : List Sym) : EngineM Sym := do
  let vs ← parts.mapM valueOf
  pure { result with value := some (.list (.str result.kind :: vs)) }

def perform (action : RuleAction) (result : Sym) (parts : List Sym) : EngineM Call := do
  match action with
  | .tree => return .done (← makeTree result parts)
  | .nothing => return .done result
  | .first =>
    match parts with
    | [] => throw .outOfRange
    | s :: _ => return .done { result with value := some (← valueOf s) }
  | .error => return .syntaxError
  | .errorIfBad =>
    let vs ← parts.mapM valueOf
    if vs.any fun v => v.same (.str "bad") then return .syntaxError
    return .done (← makeTree result parts)
  | .span => return .done { result with value := some (.list ((result :: parts).map spanOf)) }
  | .setLine =>
    return .done (← makeTree { result with line := some (101 + (parts.length : Int)) } parts)
  | .below =>
    match (← get).syms with
    | [] => throw .outOfRange
    | s :: _ =>
      return .done { result with value := some (.list [.str result.kind, ← valueOf s]) }
  | .recovered =>
    modify fun e => { e with recovered := true }
    return .done (← makeTree result parts)
  | .print =>
    let r ← makeTree result parts
    print ((r.value.getD .none).text ++ "\n")
    return .done r

def call (p : ParserProduction) (result : Sym) (parts : List Sym) : EngineM Call :=
  match p.call with
  | some (.function f) => if f.args == 1 then perform f.action result parts else throw .wrongType
  | _ => throw .wrongType

def lineOf (s : Sym) : EngineM Int :=
  match s.line with
  | some l => pure l
  | none => throw .noSuchField

def posOf (s : Sym) : EngineM Int :=
  match s.pos with
  | some p => pure p
  | none => throw .noSuchField

/-- gives a result the lines and positions of its symbols, or of the reader -/
def track (result : Sym) (parts : List Sym) (length : Nat) : EngineM Sym := do
  if length == 0 then
    let f := (← get).feed
    pure { result with line := some f.line, pos := some f.pos }
  else
    match parts, parts.getLast? with
    | s :: _, some t =>
      let line ← lineOf s
      let pos ← posOf s
      let lastLine ← lineOf t
      let lastPos ← posOf t
      pure { result with line := some line, pos := some pos
                         endLine := some (t.endLine.getD lastLine)
                         endPos := some (t.endPos.getD lastPos) }
    | _, _ => throw .outOfRange

def enter (P : Parser) (s : Sym) : EngineM Unit := do
  modify fun e => { e with syms := s :: e.syms }
  let e ← get
  match e.states with
  | [] => throw .outOfRange
  | top :: _ =>
    match P.gotos.get? top with
    | none => throw (.missingKey (.int top))
    | some row =>
      match row.get? s.kind with
      | none => throw (.missingKey (.str s.kind))
      | some n => set { e with states := n :: e.states, state := n }

def dropLast : EngineM Unit := do
  let e ← get
  match e.syms with
  | [] => throw .outOfRange
  | _ :: syms =>
    set { e with syms }
    match e.states with
    | [] => throw .outOfRange
    | _ :: states =>
      set { e with syms, states }
      match states with
      | [] => throw .outOfRange
      | top :: _ => set { e with syms, states, state := top }

/-- a rule's function has signalled an error: its result becomes the `error` symbol -/
def signalled (result : Sym) : EngineM Unit := do
  modify fun e => { e with pushed := (e.lookahead.getD .atEnd) :: e.pushed }
  dropLast
  modify fun e => { e with
    lookahead := some { result with kind := errorSymbol }
    errorCount := recoveryLength, recovered := false }

def reduce (P : Parser) (mode : Mode) (n : Nat) : EngineM Unit := do
  let some p := P.productions[n]? | throw .outOfRange
  let e ← get
  let parts := (e.syms.take p.length).reverse
  if mode.trace then
    let vs ← parts.mapM valueOf
    logTrace ("Action : Reduce rule [" ++ p.text ++ "] with [" ++
      Text.joinWith "," (vs.map entryText) ++ "] and goto state " ++ toString n)
  -- where the stack is too short, its bottom is taken for the result's place
  let parts := if p.length < e.syms.length then parts else parts.drop 1
  if p.length != 0 && e.syms.isEmpty then throw .outOfRange
  let result : Sym := { kind := p.name, value := some .none }
  let result ← if mode.track then track result parts p.length else pure result
  modify fun e => { e with
    syms := e.syms.drop p.length, states := e.states.drop p.length }
  match ← call p result parts with
  | .syntaxError => signalled result
  | .done r =>
    if mode.trace then logTrace ("Result : " ++ resultText (r.value.getD .none))
    enter P r

/-! ## errors -/

def restart : EngineM Unit := modify fun e => { e with states := [0], syms := [.atEnd] }

def skipTo (kind : String) : Nat → EngineM (Option Sym)
  | 0 => pure none
  | n + 1 => do
    match ← readToken with
    | none => pure none
    | some t => if t.kind == kind then pure (some t) else skipTo kind n

def drain : Nat → EngineM Unit
  | 0 => pure ()
  | n + 1 => do
    match ← readToken with
    | none => pure ()
    | some _ => drain n

/-- the function for syntax errors; it may give the next lookahead -/
def recover (r : Recovery) (token : Option Sym) : EngineM (Option Sym) := do
  print ("error: " ++ ((token.map Sym.text).getD "None") ++ "\n")
  if token.isNone then return none
  let n := (← get).feed.ahead.length + 1
  match r with
  | .report => return none
  | .recovered =>
    modify fun e => { e with recovered := true }
    return none
  | .skipTo kind =>
    let t ← skipTo kind n
    modify fun e => { e with recovered := true }
    return t
  | .drain =>
    drain n
    restart
    return none
  | .restart =>
    restart
    return none

def defaultReport (token : Option Sym) : String :=
  match token with
  | none => "yacc: Parse error in input. EOF\n"
  | some t =>
    match t.line.filter (· != 0) with
    | some l => "yacc: Syntax error at line " ++ Text.intText l ++ ", token=" ++ t.kind ++ "\n"
    | none => "yacc: Syntax error, token=" ++ t.kind

/-- what is left to do after an error was reported -/
inductive Report where
  /-- the function has put the parser right -/
  | resumed
  | stop
  | goOn

def reportError (P : Parser) (look : Sym) : EngineM Report := do
  modify fun e => { e with errorCount := recoveryLength, recovered := false }
  let token := if look.kind == endSymbol then none else some look
  match P.onError.filter Entry.isSet with
  | some (.function f) =>
    if f.args != 1 then throw .wrongType
    let t ← recover f.recovery token
    if (← get).recovered then
      modify fun e => { e with lookahead := t }
      return .resumed
    return .goOn
  | some (.value _) => throw .wrongType
  | none =>
    modify fun e => { e with trace := e.trace ++ defaultReport token }
    return if token.isNone then .stop else .goOn

inductive Progress where
  | running
  | finished (v : Value)

def onError (P : Parser) (mode : Mode) (look : Sym) : EngineM Progress := do
  if mode.trace then logTrace ("ERROR: Error  : " ++ situation (← get))
  let e ← get
  let report ← if e.errorCount == 0 || e.recovered then reportError P look
    else do
      modify fun e => { e with errorCount := recoveryLength }
      pure Report.goOn
  match report with
  | .resumed => return .running
  | .stop => return .finished .none
  | .goOn =>
    let e ← get
    if e.states.length ≤ 1 && look.kind != endSymbol then
      set { e with lookahead := none, state := 0, pushed := [] }
      return .running
    else if look.kind == endSymbol then return .finished .none
    else if look.kind != errorSymbol then
      match e.syms with
      | [] => throw .outOfRange
      | top :: _ =>
        if top.kind == errorSymbol then set { e with lookahead := none }
        else
          set { e with
            lookahead := some { kind := errorSymbol, line := look.line, value := some look.asValue }
            pushed := look :: e.pushed }
        return .running
    else
      dropLast
      return .running

/-! ## steps -/

def look : EngineM Sym := do
  let e ← get
  match e.lookahead with
  | some s => pure s
  | none =>
    match e.pushed with
    | s :: rest =>
      set { e with lookahead := some s, pushed := rest }
      pure s
    | [] =>
      let s := (← readToken).getD .atEnd
      modify fun e => { e with lookahead := some s }
      pure s

def step (P : Parser) (mode : Mode) : EngineM Progress := do
  if mode.trace then
    logTrace ""
    logTrace ("State  : " ++ toString (← get).state)
  let s ← look
  if mode.trace then logTrace ("Stack  : " ++ situation (← get))
  let e ← get
  match P.actions.get? e.state with
  | none => throw (.missingKey (.int e.state))
  | some row =>
    match (row.get? s.kind).join with
    | some (.shift n) =>
      if mode.trace then logTrace ("Action : Shift and goto state " ++ toString n)
      modify fun e => { e with
        states := n :: e.states, state := n, syms := s :: e.syms, lookahead := none
        errorCount := e.errorCount - 1 }
      return .running
    | some (.reduce n) =>
      reduce P mode n
      return .running
    | some .accept =>
      match e.syms with
      | [] => throw .outOfRange
      | top :: _ =>
        let v := top.value.getD .none
        if mode.trace then
          logTrace ("Done   : Returning " ++ resultText v)
          logTrace "PLY: PARSE DEBUG END"
        return .finished v
    | none => onError P mode s

def steps (P : Parser) (mode : Mode) : Nat → EngineM Value
  | 0 => throw .outOfFuel
  | n + 1 => do
    match ← step P mode with
    | .finished v => pure v
    | .running => steps P mode n

end Engine

/-- runs a parser on a feed; `recovered` is what an earlier run has left -/
def Parser.run (P : Parser) (mode : Mode) (fuel : Nat) (feed : Feed) (recovered : Bool) :
    Except Fault Value × Engine :=
  let start : Engine :=
    { feed, recovered, trace := if mode.trace then "PLY: PARSE DEBUG START\n" else "" }
  (Engine.steps P mode fuel).run.run start

end Pl0Kit.Lalr
