import Pl0Kit.Preprocessor.Define

/-!
# Expansion

Names with definitions are replaced from left to right.  What a name is replaced by is expanded in
turn, but not that name again within it; arguments are expanded on their own, before they are put
in. Tokens that replace a name take its line.
-/

namespace Pl0Kit.Preprocessor

open Scanner (Tok)

def joinValues : List Tok → Except Fault String
  | [] => .ok ""
  | t :: ts =>
    match t.value with
    | .str s => (joinValues ts).map (s ++ ·)
    | _ => .error .wrongType

/-- an argument as text: its tokens in quotes, each backslash written twice -/
def quoteArgument (arg : List Tok) : Except Fault String := do
  let s ← joinValues arg
  pure (String.ofList
    (("\"" ++ s ++ "\"").toList.flatMap fun c => if c == '\\' then ['\\', '\\'] else [c]))

def putTexts (args : List (List Tok)) (body : List (Option Tok)) :
    List (Nat × Nat) → Except Fault (List (Option Tok))
  | [] => .ok body
  | (arg, i) :: ps => do
    let text ← quoteArgument (args[arg]?.getD [])
    putTexts args (body.modify i fun t => t.map fun t => { t with value := .str text }) ps

/-- Puts arguments into a body, from the last place to the first.  An argument that was expanded for
one place stays so for the places that come after. -/
def putArguments (expand : List Tok → PreM (List Tok)) (args : List (List Tok)) (done : List Nat)
    (body : List (Option Tok)) : List Patch → PreM (List (Option Tok))
  | [] => pure body
  | p :: ps => do
    let arg := args[p.arg]?.getD []
    let fresh := p.expanded && !done.contains p.arg
    let arg ← if fresh then expand arg else pure arg
    let body := body.take p.place ++ arg.map some ++ body.drop (p.place + 1)
    putArguments expand (if fresh then args.set p.arg arg else args)
      (if fresh then p.arg :: done else done) body ps

def substitute (expand : List Tok → PreM (List Tok)) (d : Definition) (args : List (List Tok)) :
    PreM (List Tok) := do
  match putTexts args (d.body.map some) d.textPatches with
  | .error f => throw f
  | .ok body =>
    let bare := d.variadic && (args.getLast?.getD []).isEmpty
    let body := if bare then d.commaPatches.foldl (fun b i => b.set i none) body else body
    let body ← putArguments expand args [] body d.patches
    pure (body.filterMap id)

/-- The arguments for the parameters of a definition; the last parameter may take all that is left,
with the blanks around it. -/
def fitArguments (d : Definition) (n : Nat) (open_ : List Tok) (a : Arguments) : List (List Tok) :=
  if !d.variadic then a.args
  else if a.args.length + 1 == n then a.args ++ [[]]
  else
    let start := a.places[n - 1]?.getD 0
    a.args.take (n - 1) ++ [(open_.take (a.count - 1)).drop start]

def argumentFault? (d : Definition) (name : Value) (n got : Nat) : Option String :=
  if !d.variadic then
    if got == n then none
    else some ("Macro " ++ name.text ++ " requires " ++ toString n ++ " arguments")
  else if n ≤ got + 1 then none
  else some ("Macro " ++ name.text ++ " must have at least " ++ toString (n - 1) ++
    (if 2 < n then " arguments" else " argument"))

/-- Expands tokens in turn.  `deeper` expands what a name is replaced by, `busy` are the names being
replaced; `fuel` bounds the steps, of which each token takes one.  A name with parameters that no
parenthesis follows is looked at again and again. -/
def expandWith (deeper : List Value → List Tok → PreM (List Tok)) (busy : List Value) :
    Nat → List Tok → PreM (List Tok)
  | 0, _ => throw .outOfFuel
  | _ + 1, [] => pure []
  | fuel + 1, t :: ts => do
    let name ← kindOf (·.name)
    let s ← get
    let found := if t.kind != name || busy.any (·.same t.value) then none else s.find? t.value
    match found with
    | none =>
      let t ← if t.kind == name && t.is "__LINE__" then do
          let kind ← kindOf (·.number)
          pure { t with kind, value := s.kinds.numberValue t.line }
        else pure t
      let rest ← expandWith deeper busy fuel ts
      pure (t :: rest)
    | some d =>
      match d.params.getD [] with
      | [] =>
        let new ← deeper (t.value :: busy) d.body
        let rest ← expandWith deeper busy fuel ts
        pure (new.map (fun u => { u with line := t.line }) ++ rest)
      | params =>
        let blanks := (ts.takeWhile s.kinds.isSpace).length
        match ts.drop blanks with
        | [] => throw .outOfRange
        | u :: us =>
          if !u.is "(" then expandWith deeper busy fuel (t :: ts)
          else
            let a ← collectArguments (u :: us)
            match argumentFault? d t.value params.length a.args.length with
            | some text =>
              report t.line text
              let rest ← expandWith deeper busy fuel ((u :: us).drop a.count)
              pure (t :: ts.take blanks ++ (u :: us).take a.count ++ rest)
            | none =>
              let args := fitArguments d params.length (u :: us) a
              let new ← substitute (deeper []) d args
              let new ← deeper (t.value :: busy) new
              let rest ← expandWith deeper busy fuel ((u :: us).drop a.count)
              pure (new.map (fun u => { u with line := t.line }) ++ rest)

def expandTo : Nat → List Value → List Tok → PreM (List Tok)
  | 0, _, _ => throw .tooDeep
  | depth + 1, busy, ts => expandWith (expandTo depth) busy (ts.length + 1) ts

def depthLimit : Nat := 900

def expand (ts : List Tok) : PreM (List Tok) := expandTo depthLimit [] ts

end Pl0Kit.Preprocessor
