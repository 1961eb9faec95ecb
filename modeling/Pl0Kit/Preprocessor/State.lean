import Pl0Kit.Preprocessor.Reader

/-!
# The state of a preprocessor

Definitions are kept with the places where arguments go, found once when a definition is made.  The
kinds of tokens that matter are found by asking the reader for samples (`probe`).
-/

namespace Pl0Kit.Preprocessor

open Scanner (Tok)

/-! ## definitions -/

/-- a place in a definition that an argument takes -/
structure Patch where
  /-- whether the argument is expanded first -/
  expanded : Bool
  arg : Nat
  place : Nat
  deriving Inhabited, Repr

structure Definition where
  name : Value
  body : List Tok
  /-- parameters, if a list of them was given -/
  params : Option (List Value) := none
  /-- whether the last parameter takes all further arguments -/
  variadic : Bool := false
  /-- from the last place to the first -/
  patches : List Patch := []
  /-- argument and place of arguments put in as text -/
  textPatches : List (Nat × Nat) := []
  /-- places of commas that go away if no further arguments are given -/
  commaPatches : List Nat := []
  deriving Inhabited

/-! ## reading in progress -/

/-- what is left to do once all pending tokens are given out -/
inductive Todo where
  | nothing
  | define (args : List Tok)
  | undefine (args : List Tok)
  | insertFile (args : List Tok)
  /-- the text is at its end -/
  | leave
  deriving Inhabited

structure Return where
  /-- what the name of the present text was defined as -/
  fileName : Definition
  /-- whether the included file's directory was searched -/
  nearby : Bool
  deriving Inhabited

structure Layer where
  source : String
  reader : Reader
  /-- tokens not yet expanded -/
  chunk : List Tok := []
  /-- whether the present lines count -/
  enabled : Bool := true
  /-- whether a branch of the present condition was taken -/
  taken : Bool := false
  /-- the same two for the conditions around, the innermost first -/
  outer : List (Bool × Bool) := []
  pending : List Tok := []
  todo : Todo := .nothing
  back : Option Return := none
  deriving Inhabited

inductive Reading where
  | waiting (text : String) (source : String)
  /-- the innermost text first -/
  | running (layers : List Layer)
  | over
  deriving Inhabited

/-! ## the state -/

structure Kinds where
  name : Option String := none
  number : Option String := none
  /-- whether numbers are integers, and not text -/
  numeric : Bool := false
  text : Option String := none
  blank : Option String := none
  newline : Option String := none
  deriving Inhabited, Repr

structure State where
  reader : Reader
  kinds : Kinds := {}
  definitions : List (Value × Definition) := []
  /-- directories to search -/
  path : List String := []
  /-- directories of the files being read, the innermost first -/
  nearby : List String := []
  /-- name of the present text; none before the first one -/
  source : Option String := none
  /-- kinds of tokens that are not given out -/
  ignored : List String := []
  reading : Option Reading := none
  files : List (String × String) := []
  output : String := ""
  deriving Inhabited

abbrev PreM (α : Type) := ExceptT Fault (StateM State) α

def print (line : String) : PreM Unit :=
  modify fun s => { s with output := s.output ++ line ++ "\n" }

def sourceName : PreM String := do
  match (← get).source with
  | some s => pure s
  | none => throw .noSuchField

def reportIn (source : String) (line : Int) (text : String) : PreM Unit :=
  print (source ++ ":" ++ Text.intText line ++ " " ++ text)

def report (line : Int) (text : String) : PreM Unit := do reportIn (← sourceName) line text

/-! ## definitions by name -/

def State.find? (s : State) (name : Value) : Option Definition :=
  (s.definitions.find? fun e => e.1.same name).map Prod.snd

def State.isDefined (s : State) (name : Value) : Bool := (s.find? name).isSome

def putDefinition (name : Value) (d : Definition) :
    List (Value × Definition) → List (Value × Definition)
  | [] => [(name, d)]
  | (k, e) :: es => if k.same name then (k, d) :: es else (k, e) :: putDefinition name d es

def State.bind (s : State) (name : Value) (d : Definition) : State :=
  { s with definitions := putDefinition name d s.definitions }

def State.forget (s : State) (name : Value) : State :=
  { s with definitions := s.definitions.filter fun e => !e.1.same name }

/-! ## tokens -/

def nextToken : PreM (Option Tok) := do
  let s ← get
  let (r, printed, reader) := s.reader.next
  set { s with reader, output := s.output ++ printed }
  match r with
  | .ok t => pure t
  | .error f => throw f

def allTokens : Nat → PreM (List Tok)
  | 0 => throw .outOfFuel
  | n + 1 => do
    match ← nextToken with
    | none => pure []
    | some t =>
      let ts ← allTokens n
      pure (t :: ts)

def tokenize (text : String) : PreM (List Tok) := do
  modify fun s => { s with reader := s.reader.input text }
  allTokens (← get).reader.bound

def Kinds.isSpace (k : Kinds) (t : Tok) : Bool := k.blank == some t.kind || k.newline == some t.kind

def kindOf (f : Kinds → Option String) : PreM String := do
  match f (← get).kinds with
  | some k => pure k
  | none => throw .noSuchField

def Kinds.strip (k : Kinds) (ts : List Tok) : List Tok :=
  ((ts.dropWhile k.isSpace).reverse.dropWhile k.isSpace).reverse

def Kinds.numberValue (k : Kinds) (n : Int) : Value :=
  if k.numeric then .int n else .str (Text.intText n)

/-- A number with a suffix as the value of a token.  Readers whose tokens hold integers refuse the
suffix. -/
def Kinds.longValue (k : Kinds) (text : String) : Except Fault Value :=
  if k.numeric then .error .badValue else .ok (.str text)

/-! ## samples -/

def sample (text : String) : PreM (Option Tok) := do
  modify fun s => { s with reader := s.reader.input text }
  nextToken

/-- a sample that has to be a single token -/
def sampleKind (text : String) : PreM (Option String) := do
  match ← sample text with
  | some t => pure (if t.is text then some t.kind else none)
  | none => pure none

def setKinds (f : Kinds → Kinds) : PreM Unit := modify fun s => { s with kinds := f s.kinds }

def sampleNumber : PreM Unit := do
  let missing : PreM Unit := print "Couldn't determine integer type"
  match ← sample "12345" with
  | none => missing
  | some t =>
    match t.value with
    | .int n =>
      if n = 12345 then setKinds fun k => { k with number := some t.kind, numeric := true }
      else missing
    | .str v =>
      match Text.readInt? v.toList with
      | none => throw .badValue
      | some n =>
        if n = 12345 then setKinds fun k => { k with number := some t.kind }
        else missing
    | _ => throw .wrongType

def required : List String := ["<", ">", "#", "##", "\\", "(", ")", ",", "."]

/-- finds the kinds of tokens that the reader has, and reports those it lacks -/
def probe : PreM Unit := do
  match ← sampleKind "identifier" with
  | some k => setKinds fun ks => { ks with name := some k }
  | none => print "Couldn't determine identifier type"
  sampleNumber
  match ← sampleKind "\"filename\"" with
  | some k => setKinds fun ks => { ks with text := some k }
  | none => print "Couldn't determine string type"
  let blank ← sampleKind "  "
  setKinds fun ks => { ks with blank }
  match ← sampleKind "\n" with
  | some k => setKinds fun ks => { ks with newline := some k }
  | none => print "Couldn't determine token for newlines"
  required.forM fun c => do
    if (← sampleKind c).isNone then print ("Unable to lex '" ++ c ++ "' required for preprocessor")

end Pl0Kit.Preprocessor
