import Pl0Kit.Scanner.Token
import Pl0Kit.Text.Number

/-!
# Scanning

A scanner goes through its text.  At each place it passes over characters to be ignored, then tries
its joined expressions in order, then single characters that are tokens of their own, and then calls
the function for errors.  In each of its states it has other expressions, characters to ignore and
function for errors.
-/

namespace Pl0Kit

namespace Scanner

inductive ScanFault where
  /-- a function gave back a token of a kind that is not declared -/
  | unknownKind (f : Function) (kind : String) (rest : String)
  /-- the function for errors did not move on -/
  | stuck (c : Char) (rest : String)
  | illegal (c : Char) (pos : Int) (rest : String)
  | other (f : Fault)
  deriving Inhabited

namespace ScanFault

def message : ScanFault → Option String
  | unknownKind f k _ => some (f.file ++ ":" ++ Text.intText f.line ++ ": Rule '" ++ f.name ++
      "' returned an unknown token type '" ++ k ++ "'")
  | stuck c _ => some ("Scanning error. Illegal character '" ++ String.singleton c ++ "'")
  | illegal c p _ => some ("Illegal character '" ++ String.singleton c ++ "' at index " ++
      Text.intText p)
  | other f => f.message

def rest? : ScanFault → Option String
  | unknownKind _ _ r => some r
  | stuck _ r => some r
  | illegal _ _ r => some r
  | other _ => none

end ScanFault

def initialState : String := "INITIAL"

end Scanner

structure Scanner where
  states : Ordered String (List Scanner.Joined) := []
  ignore : Ordered String String := []
  onError : Ordered String (Option Scanner.Function) := []
  /-- the kinds that functions may give back; any if none are given -/
  kinds : Option (List String) := none
  /-- characters that are tokens of their own -/
  literals : Value := .str ""
  state : String := Scanner.initialState
  /-- expressions, ignored characters and function for errors in use -/
  joined : List Scanner.Joined := []
  ignoring : String := ""
  errorCall : Option Scanner.Function := none
  text : Option (List Char) := none
  pos : Int := 0
  line : Int := 1
  deriving Inhabited

namespace Scanner

/-- a scanner at work: saved states and printed text are outside of it -/
structure Work where
  scanner : Scanner
  /-- saved states, the last one first -/
  stack : List String := []
  output : String := ""
  deriving Inhabited

abbrev ScanM (α : Type) := ExceptT ScanFault (StateM Work) α

def modifyScanner (f : Scanner → Scanner) : ScanM Unit :=
  modify fun w => { w with scanner := f w.scanner }

def print (s : String) : ScanM Unit := modify fun w => { w with output := w.output ++ s }

def input (s : Scanner) (text : String) : Scanner :=
  { s with text := some text.toList, pos := 0 }

def begin (s : Scanner) (state : String) : Except Fault Scanner :=
  match s.states.get? state with
  | none => .error .badValue
  | some joined => .ok { s with
      state, joined
      ignoring := (s.ignore.get? state).getD ""
      errorCall := ((s.onError.get? state).join) }

def enterState (state : String) : ScanM Unit := do
  match (← get).scanner.begin state with
  | .ok s => modifyScanner fun _ => s
  | .error f => throw (.other f)

/-- characters of a text from a place that may count from the end -/
def sliceFrom (cs : List Char) (pos : Int) : List Char :=
  if pos < 0 then cs.drop (cs.length - pos.natAbs) else cs.drop pos.toNat

def firstChar (v : Value) : String :=
  match v with
  | .str s => String.ofList (s.toList.take 1)
  | _ => ""

def newlines (v : Value) : Int :=
  match v with
  | .str s => (s.toList.filter (· == '\n')).length
  | _ => 0

/-- performs a function's action; gives back the token unless it is dropped -/
def perform (action : TokenAction) (t : Tok) : ScanM (Option Tok) := do
  match action with
  | .keep => return some t
  | .drop => return none
  | .print =>
    print (t.asValue.text ++ "\n")
    return none
  | .dropLines =>
    modifyScanner fun s => { s with line := s.line + newlines t.value }
    return none
  | .keepLines =>
    modifyScanner fun s => { s with line := s.line + newlines t.value }
    return some t
  | .keepLine =>
    modifyScanner fun s => { s with line := s.line + 1 }
    return some t
  | .toInt =>
    match t.value with
    | .str s =>
      match Text.readInt? s.toList with
      | some n => return some { t with value := .int n }
      | none => throw (.other .badValue)
    | _ => return some t
  | .upper =>
    match t.value with
    | .str s => return some { t with value := .str (Text.upperText s) }
    | _ => return some t
  | .retype k => return some { t with kind := k }
  | .begin s =>
    enterState s
    return none
  | .push s =>
    modify fun w => { w with stack := w.scanner.state :: w.stack }
    enterState s
    return none
  | .pop =>
    let w ← get
    match w.stack with
    | [] => throw (.other .outOfRange)
    | s :: rest =>
      set { w with stack := rest }
      enterState s
      return none
  | .back n =>
    modifyScanner fun s => { s with pos := s.pos - n }
    return some t
  | .skip n =>
    print ("skip '" ++ firstChar t.value ++ "'\n")
    modifyScanner fun s => { s with pos := s.pos + n }
    return none
  | .char =>
    modifyScanner fun s => { s with pos := s.pos + 1 }
    return some { t with value := .str (firstChar t.value) }
  | .charKind =>
    modifyScanner fun s => { s with pos := s.pos + 1 }
    return some { t with value := .str (firstChar t.value), kind := firstChar t.value }

def call (f : Function) (t : Tok) : ScanM (Option Tok) :=
  if f.args == 1 then perform f.action t else throw (.other .wrongType)

def isLiteral (literals : Value) (c : Char) : Except Fault Bool :=
  match literals with
  | .str s => .ok (s.toList.contains c)
  | .list xs => .ok (xs.any (·.same (.str (String.singleton c))))
  | .tuple xs => .ok (xs.any (·.same (.str (String.singleton c))))
  | .dict es => .ok (es.any (·.1.same (.str (String.singleton c))))
  | _ => .error .wrongType

structure Hit where
  target : Option Target
  stop : Nat

/-- the first joined expression that matches -/
def firstHit (before : Option Char) (pos : Nat) (rest : List Char) : List Joined → Option Hit
  | [] => none
  | j :: js =>
    match j.regex.matchAt? before pos rest with
    | some f => some ⟨(j.targets[f.last]?).join, f.stop⟩
    | none => firstHit before pos rest js

/-- no rule matches at `pos`, where `c` stands; gives a token, or nothing if scanning goes on -/
def onNothing (cs : List Char) (c : Char) (pos : Int) : ScanM (Option Tok) := do
  let s := (← get).scanner
  match isLiteral s.literals c with
  | .error f => throw (.other f)
  | .ok true =>
    modifyScanner fun s => { s with pos := pos + 1 }
    return some ⟨String.singleton c, .str (String.singleton c), s.line, pos⟩
  | .ok false =>
    let left := String.ofList (sliceFrom cs pos)
    modifyScanner fun s => { s with pos }
    match s.errorCall with
    | none => throw (.illegal c pos left)
    | some f =>
      let t ← call f ⟨"error", .str left, s.line, pos⟩
      if (← get).scanner.pos == pos then throw (.stuck c left)
      return t

/-- One step from a place on: a token, the end, or the place and the ignored characters to go on
with. -/
inductive Move where
  | token (t : Tok)
  | finished
  | on (pos : Int) (ignoring : String)

def step (cs : List Char) (pos : Int) (ignoring : String) : ScanM Move := do
  if (cs.length : Int) ≤ pos then
    modifyScanner fun s => { s with pos := pos + 1 }
    return .finished
  let place := if pos < 0 then pos + cs.length else pos
  if place < 0 then throw (.other .outOfRange)
  match cs[place.toNat]? with
  | none => throw (.other .outOfRange)
  | some c =>
    if ignoring.toList.contains c then return .on (pos + 1) ignoring
    let s := (← get).scanner
    let start := pos.toNat
    match firstHit (if start == 0 then none else cs[start - 1]?) start (cs.drop start) s.joined with
    | none =>
      match ← onNothing cs c pos with
      | some t => return .token t
      | none => return .on (← get).scanner.pos ignoring
    | some hit =>
      let value := Value.str (String.ofList ((cs.drop start).take (hit.stop - start)))
      let tok (kind : String) : Tok := ⟨kind, value, s.line, pos⟩
      match hit.target with
      | none => throw (.other .wrongType)
      | some (.ignored _) => return .on hit.stop ignoring
      | some (.plain _ kind) =>
        modifyScanner fun s => { s with pos := hit.stop }
        return .token (tok kind)
      | some (.call _ f kind) =>
        modifyScanner fun s => { s with pos := hit.stop }
        match ← call f (tok kind) with
        | none =>
          let s := (← get).scanner
          return .on s.pos s.ignoring
        | some t =>
          match s.kinds with
          | some ks =>
            if !ks.contains t.kind then
              throw (.unknownKind f t.kind (String.ofList (cs.drop hit.stop)))
          | none => pure ()
          return .token t

def steps (cs : List Char) : Nat → Int → String → ScanM (Option Tok)
  | 0, _, _ => throw (.other .outOfFuel)
  | n + 1, pos, ignoring => do
    match ← step cs pos ignoring with
    | .token t => return some t
    | .finished => return none
    | .on pos ignoring => steps cs n pos ignoring

def nextToken (fuel : Nat) : ScanM (Option Tok) := do
  let s := (← get).scanner
  match s.text with
  | none =>
    modifyScanner fun s => { s with pos := s.pos + 1 }
    throw (.other .noInput)
  | some cs => steps cs fuel s.pos s.ignoring

/-- tokens up to the end, at most `n` of them; those found before a fault are kept -/
def tokens (fuel : Nat) : Nat → Work → List Tok × Option ScanFault × Work
  | 0, w => ([], none, w)
  | n + 1, w =>
    match (nextToken fuel).run.run w with
    | (.ok none, w) => ([], none, w)
    | (.ok (some t), w) =>
      let r := tokens fuel n w
      (t :: r.1, r.2)
    | (.error f, w) => ([], some f, w)

end Scanner

end Pl0Kit
