import Pl0Kit.Lalr.Lookahead

/-!
# Parsing tables

Actions and gotos of each state, with a log of how they came about.  Where an item can be reduced
and a symbol shifted, precedence decides; where two items can be reduced, the rule that stands first
in its file.  A conflict that no precedence settles is kept in a list.
-/

namespace Pl0Kit.Lalr

inductive Action where
  | accept
  | shift (state : Nat)
  | reduce (rule : Nat)
  deriving DecidableEq, Inhabited, Repr

/-- actions as numbers: the state to shift to, or the rule to reduce by, negated -/
def Action.code : Action → Int
  | accept => 0
  | shift n => n
  | reduce n => -(n : Int)

inductive Method where
  | slr | lalr
  deriving DecidableEq, Inhabited, Repr

namespace Method

def word : Method → String
  | slr => "SLR"
  | lalr => "LALR"

def ofWord? : String → Option Method
  | "SLR" => some slr
  | "LALR" => some lalr
  | _ => none

end Method

inductive Resolution where
  | shift | reduce
  deriving DecidableEq, Inhabited, Repr

def Resolution.word : Resolution → String
  | shift => "shift"
  | reduce => "reduce"

structure ShiftReduce where
  state : Nat
  symbol : String
  resolution : Resolution
  deriving Inhabited

structure ReduceReduce where
  state : Nat
  chosen : Nat
  rejected : Nat
  deriving Inhabited

/-- the actions of a state; `none` is an error entry -/
abbrev ActionRow := Ordered String (Option Action)
abbrev GotoRow := Ordered String Nat

structure Table where
  method : Method
  actions : Ordered Nat ActionRow := []
  gotos : Ordered Nat GotoRow := []
  log : String := ""
  shiftReduce : List ShiftReduce := []
  reduceReduce : List ReduceReduce := []
  deriving Inhabited

/-- one possible action, with the item that offers it and its wording -/
structure Offer where
  symbol : String
  item : Item
  text : String
  deriving Inhabited

structure RowWork where
  state : Nat
  actions : ActionRow := []
  /-- the item whose action was taken -/
  actor : Ordered String Item := []
  offers : List Offer := []
  deriving Inhabited

structure TableWork where
  grammar : Grammar
  table : Table
  row : RowWork := { state := 0 }
  deriving Inhabited

abbrev TableM (α : Type) := ExceptT BuildFault (StateM TableWork) α

namespace TableM

def log (line : String) : TableM Unit :=
  modify fun w => { w with table := { w.table with log := w.table.log ++ line ++ "\n" } }

def note (a : String) (r : Resolution) : TableM Unit := do
  log ("  ! shift/reduce conflict for " ++ a ++ " resolved as " ++ r.word)
  modify fun w => { w with table := { w.table with
    shiftReduce := w.table.shiftReduce ++ [⟨w.row.state, a, r⟩] } }

def count (n : Nat) (by' : Int) : TableM Unit :=
  modify fun w => { w with
    grammar := w.grammar.modifyRule n fun p => { p with reduced := p.reduced + by' } }

def offer (symbol : String) (item : Item) (text : String) : TableM Unit :=
  modify fun w => { w with row := { w.row with offers := w.row.offers ++ [⟨symbol, item, text⟩] } }

def take (a : String) (x : Action) (item : Item) : TableM Unit :=
  modify fun w => { w with row := { w.row with
    actions := w.row.actions.put a (some x), actor := w.row.actor.put a item } }

def forbid (a : String) : TableM Unit :=
  modify fun w => { w with row := { w.row with actions := w.row.actions.put a none } }

def current (a : String) : TableM (Option Action) := do
  return ((← get).row.actions.get? a).join

def rankOfRule (n : Nat) : TableM Rank := do
  return (((← get).grammar.production? n).map (·.rank)).getD {}

def rankOfActor (a : String) : TableM Rank := do
  match (← get).row.actor.get? a with
  | some i => rankOfRule i.number
  | none => pure {}

def rankOfTerminal (a : String) : TableM Rank := do
  return ((← get).grammar.precedence.get? a).getD {}

def ruleLine (n : Nat) : TableM Int := do
  return (((← get).grammar.production? n).map (·.place.line)).getD 0

/-- item `p` wants to be reduced when `a` comes -/
def reduceOn (p : Item) (a : String) : TableM Unit := do
  offer a p ("reduce using rule " ++ toString p.number ++ " (" ++ p.text ++ ")")
  match ← current a with
  | none =>
    take a (.reduce p.number) p
    count p.number 1
  | some (.shift _) =>
    let s ← rankOfActor a
    let r ← rankOfTerminal a
    if s.level < r.level || (s.level == r.level && r.assoc == .left) then
      take a (.reduce p.number) p
      if s.level == 0 && r.level == 0 then note a .reduce
      count p.number 1
    else if s.level == r.level && r.assoc == .nonassoc then forbid a
    else if r.level == 0 then note a .shift
  | some (.reduce old) =>
    let first := (← ruleLine old) > (← ruleLine p.number)
    if first then
      take a (.reduce p.number) p
      count p.number 1
      count old (-1)
    let (chosen, rejected) := if first then (p.number, old) else (old, p.number)
    modify fun w => { w with table := { w.table with
      reduceReduce := w.table.reduceReduce ++ [⟨w.row.state, chosen, rejected⟩] } }
    match (← get).row.actor.get? a with
    | some i =>
      log ("  ! reduce/reduce conflict for " ++ a ++ " resolved using rule " ++
        toString i.number ++ " (" ++ i.text ++ ")")
    | none => pure ()
  | some .accept => throw (.unknownConflict (← get).row.state)

/-- item `p` wants to shift `a` and go to state `j` -/
def shiftOn (p : Item) (a : String) (j : Nat) : TableM Unit := do
  offer a p ("shift and go to state " ++ toString j)
  match ← current a with
  | none => take a (.shift j) p
  | some (.shift k) => if k != j then throw (.shiftConflict (← get).row.state)
  | some (.reduce _) =>
    let r ← rankOfActor a
    let s ← rankOfTerminal a
    if s.level > r.level || (s.level == r.level && r.assoc == .right) then
      match (← get).row.actor.get? a with
      | some i => count i.number (-1)
      | none => pure ()
      take a (.shift j) p
      if r.level == 0 then note a .shift
    else if s.level == r.level && r.assoc == .nonassoc then forbid a
    else if s.level == 0 && r.level == 0 then note a .reduce
  | some .accept => throw (.unknownConflict (← get).row.state)

def reduceSymbols (method : Method) (looks : Automaton.Lookaheads) (n : Nat) (p : Item) :
    TableM (List String) := do
  let g := (← get).grammar
  let found := match method with
    | .lalr => looks.get? (n, p.key)
    | .slr => g.follow.get? p.name
  match found with
  | some s => pure s
  | none => throw .missing

def actItem (a : Automaton) (method : Method) (looks : Automaton.Lookaheads) (n : Nat) (p : Item) :
    TableM Unit := do
  match p.after? with
  | none =>
    if p.name == rootName then take endSymbol .accept p
    else (← reduceSymbols method looks n p).forM (reduceOn p)
  | some s =>
    if (← get).grammar.isTerminal s then
      match a.goto? n s with
      | some j => shiftOn p s j
      | none => pure ()

def logOffers : TableM Unit := do
  let row := (← get).row
  let acts (o : Offer) : Bool := (row.actor.get? o.symbol).any (·.key == o.item.key)
  let known := row.offers.filter fun o => row.actions.has o.symbol
  let taken := known.filter acts
  taken.forM fun o => log ("    " ++ Text.padRight 15 o.symbol ++ " " ++ o.text)
  log ""
  let same (o q : Offer) : Bool := o.symbol == q.symbol && o.text == q.text
  let refused := (known.filter fun o => !acts o && !taken.any (same o)).foldl
    (fun (seen : List Offer) o => if seen.any (same o) then seen else seen ++ [o]) []
  refused.forM fun o => log ("  ! " ++ Text.padRight 15 o.symbol ++ " [ " ++ o.text ++ " ]")
  if !refused.isEmpty then log ""

def stateRow (a : Automaton) (method : Method) (looks : Automaton.Lookaheads) (n : Nat) :
    TableM Unit := do
  let items := a.itemsOf n
  modify fun w => { w with row := { state := n } }
  log ""
  log ("state " ++ toString n)
  log ""
  items.forM fun p => log ("    (" ++ toString p.number ++ ") " ++ p.text)
  log ""
  items.forM (actItem a method looks n)
  logOffers
  let g := (← get).grammar
  let gotos := ((Automaton.symbolsOf items).filter g.isNonterminal).filterMap fun s =>
    (a.goto? n s).map (s, ·)
  gotos.forM fun (s, j) =>
    log ("    " ++ Text.padRight 30 s ++ " shift and go to state " ++ toString j)
  modify fun w => { w with table := { w.table with
    actions := w.table.actions ++ [(n, w.row.actions)]
    gotos := w.table.gotos ++ [(n, gotos)] } }

end TableM

/-- how making tables went: what was logged is there also after a fault -/
structure TableRun where
  outcome : Except BuildFault Table
  log : String
  grammar : Grammar
  deriving Inhabited

def tablesOf (method : Method) (root : Production) (g : Grammar) : TableRun :=
  let a := Automaton.build g root
  let looks := if method == .lalr then a.lookaheads else []
  let start : TableWork := { grammar := a.grammar, table := { method } }
  let rows : TableM Unit := do
    TableM.log ("Parsing method: " ++ method.word)
    (List.range a.states.size).forM (TableM.stateRow a method looks)
  let r := rows.run.run start
  ⟨r.1.map fun _ => r.2.table, r.2.table.log, r.2.grammar⟩

def prepareTable (methodName : String) : GrammarM (Method × Production) := do
  let some method := Method.ofWord? methodName | throw (.unsupportedMethod methodName)
  let _ ← liftE (← get).items
  computeFirst
  computeFollow none
  match (← get).root with
  | none => throw .wrongType
  | some root => pure (method, root)

/-- makes the tables of a grammar, which keeps the counts of its rules -/
def runTable (methodName : String) (g : Grammar) : TableRun :=
  match (prepareTable methodName).run.run g with
  | (.ok (method, root), g) => tablesOf method root g
  | (.error e, g) => ⟨.error e, "", g⟩

def makeTable (methodName : String) : GrammarM Table := do
  let r := runTable methodName (← get)
  set r.grammar
  liftE r.outcome

end Pl0Kit.Lalr
