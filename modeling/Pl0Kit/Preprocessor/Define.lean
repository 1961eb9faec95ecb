import Pl0Kit.Preprocessor.Arguments

/-!
# Definitions

A definition has a name and a body, and a list of parameters if a parenthesis follows the name at
once.  `scanBody` looks through the body for the places of parameters: after `#` the argument is put
in as text, next to `##` as it stands, and elsewhere after expansion.
-/

namespace Pl0Kit.Preprocessor

open Scanner (Tok)

def tidy (k : Kinds) : List Tok → List Tok
  | a :: b :: ts =>
    if k.isSpace a && b.is "##" then tidy k (b :: ts)
    else if a.is "##" && k.isSpace b then a :: tidy k ts
    else a :: tidy k (b :: ts)
  | ts => ts

def paramIndex? (params : List Value) (name : Value) : Option Nat :=
  params.findIdx? (·.same name)

/-- The body looked through so far, in reverse, and the places found in it. -/
structure Scan where
  body : List Tok := []
  patches : List Patch := []
  textPatches : List (Nat × Nat) := []
  commaPatches : List Nat := []
  deriving Inhabited

def Scan.endsIn (s : Scan) (text : String) : Bool := (s.body.head?.map (·.is text)).getD false

def scanRest (name : String) (textKind : Option String) (params : List Value) (variadic : Bool)
    (s : Scan) : List Tok → Except Fault Scan
  | [] => .ok s
  | t :: ts =>
    let i := s.body.length
    match if t.kind == name then paramIndex? params t.value else none with
    | some arg =>
      if s.endsIn "#" then
        match textKind with
        | none => .error .noSuchField
        | some kind => scanRest name textKind params variadic
            { s with body := { t with kind } :: s.body.tail
                     textPatches := s.textPatches ++ [(arg, i - 1)] } ts
      else if s.endsIn "##" then scanRest name textKind params variadic
        { s with body := t :: s.body.tail, patches := s.patches ++ [⟨false, arg, i - 1⟩] } ts
      else
        let joined := (ts.head?.map (·.is "##")).getD false
        scanRest name textKind params variadic
          { s with body := t :: s.body, patches := s.patches ++ [⟨!joined, arg, i⟩] } ts
    | none =>
      let comma := t.is "##" && variadic && s.endsIn "," &&
        match ts.head?, params.getLast? with
        | some u, some p => u.kind == name && u.value.same p
        | _, _ => false
      scanRest name textKind params variadic
        { s with body := t :: s.body
                 commaPatches := if comma then s.commaPatches ++ [i - 1] else s.commaPatches } ts

def scanBody (kinds : Kinds) (name : String) (label : Value) (body : List Tok) (params : List Value)
    (variadic : Bool) : Except Fault Definition := do
  let s ← scanRest name kinds.text params variadic {} body
  pure {
    name := label
    body := s.body.reverse
    params := some params
    variadic
    patches := s.patches.mergeSort fun a b => b.place ≤ a.place
    textPatches := s.textPatches
    commaPatches := s.commaPatches }

def endsInDots (s : String) : Bool := ("...".toList.reverse).isPrefixOf s.toList.reverse

/-- The parameters in a list of arguments, and whether the last one takes all that follow.  A list
with a fault is reported and gives nothing. -/
def readParams (name : String) (params : List Value) (variadic : Bool) :
    List (List Tok) → PreM (Option (List Value × Bool))
  | [] => pure (some (params.reverse, variadic))
  | a :: args => do
    if variadic then
      print "No more arguments may follow a variadic argument"
      return none
    let text := String.join (a.map (·.value.text))
    if text == "..." then readParams name (.str "__VA_ARGS__" :: params) true args
    else
      match a with
      | [] => throw .outOfRange
      | t :: rest =>
        if endsInDots text && t.kind == name then
          let v := t.value.text
          let v := if endsInDots v then String.ofList (v.toList.take (v.length - 3)) else v
          readParams name (.str v :: params) true args
        else if !rest.isEmpty || t.kind != name then
          print "Invalid macro argument"
          return none
        else readParams name (t.value :: params) false args

def bind (name : Value) (d : Definition) : PreM Unit := modify (·.bind name d)

/-- a definition read from its tokens; it has none if it has a fault -/
def defineStrict (ts : List Tok) : PreM Unit := do
  let k := (← get).kinds
  match ts with
  | [] => throw .outOfRange
  | [name] => bind name.value { name := name.value, body := [] }
  | name :: second :: rest =>
    if k.isSpace second then bind name.value { name := name.value, body := k.strip rest }
    else if second.is "(" then
      let a ← collectArguments (second :: rest)
      let kind ← kindOf (·.name)
      match ← readParams kind [] false a.args with
      | none => pure ()
      | some (params, variadic) =>
        let body := tidy k (k.strip ((second :: rest).drop a.count))
        match scanBody k kind name.value body params variadic with
        | .ok d => bind name.value d
        | .error f => throw f
    else print "Bad macro definition"

def define (ts : List Tok) : PreM Unit :=
  tryCatch (defineStrict ts) fun f =>
    match f with
    | .outOfRange => print "Bad macro definition"
    | .missingKey _ => print "Bad macro definition"
    | f => throw f

def defineText (text : String) : PreM Unit := do define (← tokenize text)

def undefine (ts : List Tok) : PreM Unit := do
  match ts with
  | [] => throw .outOfRange
  | t :: _ => modify (·.forget t.value)

end Pl0Kit.Preprocessor
