import Pl0Kit.Lalr.Grammar

/-!
# First and follow sets

Both are least sets closed under the rules, and both list their members in the order in which they
are found: rounds over the nonterminals and their rules until a round adds nothing.
-/

namespace Pl0Kit.Lalr

/-- The terminals that a sequence can start with, from the sets known so far; `<empty>` comes last
if the whole sequence can be empty. -/
def firstOf (first : Ordered String (List String)) (acc : List String) :
    List String → Except BuildFault (List String)
  | [] => .ok (acc ++ [emptyMark])
  | x :: rest =>
    match first.get? x with
    | none => .error .missing
    | some fs =>
      let acc := (fs.filter (· != emptyMark)).foldl addNew acc
      if fs.contains emptyMark then firstOf first acc rest else .ok acc

def liftE {α : Type} (r : Except BuildFault α) : GrammarM α := ExceptT.mk (pure r)

def growFirst (p : Production) : GrammarM Unit := do
  let g ← get
  let fs ← liftE (firstOf g.first [] p.syms)
  set { g with first := g.first.alter p.name [] (fs.foldl addNew ·) }

def firstRound : List String → GrammarM Unit
  | [] => pure ()
  | n :: ns => do
    let g ← get
    match g.rulesFor n with
    | [] => throw .missing
    | ps =>
      ps.forM growFirst
      firstRound ns

def setsSize (d : Ordered String (List String)) : Nat := d.foldl (fun n e => n + e.2.length) 0

def rounds (round : GrammarM Unit) (size : Grammar → Nat) : Nat → GrammarM Unit
  | 0 => pure ()
  | n + 1 => do
    let before := size (← get)
    round
    if size (← get) == before then pure () else rounds round size n

/-- no set has more members than there are symbols, so rounds that add something are this few -/
def roundBound (g : Grammar) : Nat :=
  (g.nonterminals.length + 1) * (g.terminals.length + g.nonterminals.length + 3) + 1

def computeFirst : GrammarM Unit := do
  let g ← get
  if !g.first.isEmpty then return
  let known : Ordered String (List String) :=
    (g.terminals.keys ++ [endSymbol]).foldl (fun d t => Ordered.put d t [t]) []
  set { g with first := g.nonterminals.keys.foldl (fun d n => Ordered.put d n []) known }
  rounds (firstRound g.nonterminals.keys) (fun g => setsSize g.first) (roundBound g)

/-- adds to the follow sets what one rule gives, from its symbol list on -/
def growFollow (name : String) : List String → GrammarM Unit
  | [] => pure ()
  | b :: rest => do
    let g ← get
    if g.isNonterminal b then
      let fs ← liftE (firstOf g.first [] rest)
      let g :=
        { g with follow := g.follow.alter b [] ((fs.filter (· != emptyMark)).foldl addNew ·) }
      let above := (g.follow.get? name).getD []
      set (if fs.contains emptyMark || rest.isEmpty then
        { g with follow := g.follow.alter b [] (above.foldl addNew ·) } else g)
    growFollow name rest

/-- the follow sets of all nonterminals; the end of the text follows the start symbol -/
def computeFollow (start : Option String) : GrammarM Unit := do
  if !(← get).follow.isEmpty then return
  computeFirst
  modify fun g => { g with follow := g.nonterminals.keys.foldl (fun d n => Ordered.put d n []) [] }
  let g ← get
  let start ← match start.filter (!·.isEmpty) with
    | some s => pure s
    | none =>
      match g.rules with
      | [] => throw .outOfRange
      | p :: _ => pure p.name
  set { g with follow := g.follow.put start [endSymbol] }
  rounds (g.rules.forM fun p => growFollow p.name p.syms) (fun g => setsSize g.follow)
    (roundBound g)

end Pl0Kit.Lalr
