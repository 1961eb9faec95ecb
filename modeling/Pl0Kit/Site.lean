import Pl0Kit.Fault

/-!
# Visiting trees

Every part of a tree is paired once, bottom up, with what visiting it does.  A rule for a kind of
node gets the node's parts as such pairs, looks at their values and runs those visits it wants, so
rules need no recursion of their own.

A node is a list or tuple whose head names its kind.  Kinds without a rule visit the nodes among
their parts; one result is passed on as it is, none or several as a list.
-/

namespace Pl0Kit

/-- a value, what visiting it does, and the same for its parts and, in a table, its keys -/
inductive Site (ρ : Type) where
  | mk (value : Value) (act : ρ) (parts keys : List (Site ρ))

namespace Site

variable {ρ : Type}

def value : Site ρ → Value
  | mk v _ _ _ => v

def act : Site ρ → ρ
  | mk _ a _ _ => a

def parts : Site ρ → List (Site ρ)
  | mk _ _ ps _ => ps

def keys : Site ρ → List (Site ρ)
  | mk _ _ _ ks => ks

mutual

/-- pairs every part of a value with its visit, given by the part's value, parts and keys -/
def survey (h : Value → List (Site ρ) → List (Site ρ) → ρ) : Value → Site ρ
  | .list xs => let ps := surveyAll h xs; mk (.list xs) (h (.list xs) ps []) ps []
  | .tuple xs => let ps := surveyAll h xs; mk (.tuple xs) (h (.tuple xs) ps []) ps []
  | .dict es =>
    let ps := surveyItems h es
    let ks := surveyKeys h es
    mk (.dict es) (h (.dict es) ps ks) ps ks
  | v => mk v (h v [] []) [] []

def surveyAll (h : Value → List (Site ρ) → List (Site ρ) → ρ) : List Value → List (Site ρ)
  | [] => []
  | x :: xs => survey h x :: surveyAll h xs

def surveyItems (h : Value → List (Site ρ) → List (Site ρ) → ρ) :
    List (Value × Value) → List (Site ρ)
  | [] => []
  | (_, v) :: es => survey h v :: surveyItems h es

def surveyKeys (h : Value → List (Site ρ) → List (Site ρ) → ρ) :
    List (Value × Value) → List (Site ρ)
  | [] => []
  | (k, _) :: es => survey h k :: surveyKeys h es

end

end Site

/-- a visit: state survives a fault -/
abbrev Act (σ α : Type) := ExceptT Fault (StateM σ) α

abbrev Spot (σ : Type) := Site (Act σ Value)

namespace Spot

variable {σ : Type}

def letter (c : Char) : Spot σ := .mk (.str (String.singleton c)) (pure (.list [])) [] []

def entry? (key : Int) : List (Value × Value) → List (Spot σ) → Option (Spot σ)
  | (k, _) :: es, p :: ps => if k.same (.int key) then some p else entry? key es ps
  | _, _ => none

/-- item number `i`: of a list, a tuple or a text by place, of a table by key -/
def item (s : Spot σ) (i : Nat) : Act σ (Spot σ) :=
  match s.value with
  | .list _ | .tuple _ =>
    match s.parts[i]? with
    | some p => pure p
    | none => throw .outOfRange
  | .str t =>
    match t.toList[i]? with
    | some c => pure (letter c)
    | none => throw .outOfRange
  | .dict es =>
    match entry? i es s.parts with
    | some p => pure p
    | none => throw (.missingKey (.int i))
  | _ => throw .wrongType

def slice (s : Spot σ) (i j : Nat) : Act σ (List (Spot σ)) :=
  match s.value with
  | .list _ | .tuple _ => pure ((s.parts.take j).drop i)
  | .str t => pure (((t.toList.take j).drop i).map letter)
  | _ => throw .wrongType

/-- the parts of a value that is gone through one after the other; of a table its keys -/
def items (s : Spot σ) : Act σ (List (Spot σ)) :=
  match s.value with
  | .list _ | .tuple _ => pure s.parts
  | .str t => pure (t.toList.map letter)
  | .dict _ => pure s.keys
  | _ => throw .wrongType

def pair (s : Spot σ) : Act σ (Spot σ × Spot σ) := do
  match ← s.items with
  | [a, b] => pure (a, b)
  | _ => throw .badValue

end Spot

def argument {σ : Type} (args : List (Spot σ)) (i : Nat) : Act σ (Spot σ) :=
  match args[i]? with
  | some s => pure s
  | none => throw .outOfRange

def visitNodes {σ : Type} : List (Spot σ) → Act σ (List Value)
  | [] => pure []
  | s :: ss => do
    if s.value.isNode then
      let v ← s.act
      let vs ← visitNodes ss
      pure (v :: vs)
    else visitNodes ss

/-- one result stands for itself -/
def gather : List Value → Value
  | [v] => v
  | vs => .list vs

def visitAll {σ : Type} (ss : List (Spot σ)) : Act σ Value := gather <$> visitNodes ss

/-- the rules of a visitor, by the lower-case name of the kind of node -/
abbrev Rules (σ : Type) := String → Option (List (Spot σ) → Act σ Value)

namespace Rules

variable {σ : Type}

def apply (rules : Rules σ) (tag : Value) (args : List (Spot σ)) : Act σ Value :=
  match tag with
  | .str s =>
    match rules s.toLower with
    | some rule => rule args
    | none => visitAll (args.drop 1)
  | _ => throw .noSuchField

def visit (rules : Rules σ) (v : Value) (parts keys : List (Spot σ)) : Act σ Value :=
  match v with
  | .none => pure .none
  | .list _ | .tuple _ =>
    match parts with
    | [] => throw .outOfRange
    | head :: _ => rules.apply head.value parts
  | .str s => if s.isEmpty then throw .outOfRange else pure (.list [])
  | .dict es =>
    match Spot.entry? 0 es parts with
    | some head => rules.apply head.value keys
    | none => throw (.missingKey (.int 0))
  | _ => throw .wrongType

def spot (rules : Rules σ) (v : Value) : Spot σ := Site.survey rules.visit v

def run (rules : Rules σ) (v : Value) : Act σ Value := (rules.spot v).act

def plain : Rules σ := fun _ => none

end Rules

end Pl0Kit
