import Pl0Kit.Ordered
import Pl0Kit.Text.Literal
import Pl0Kit.Lalr.Fault

/-!
# Grammars

Terminals, nonterminals, precedence and numbered productions, with the checks made when a rule comes
in and the questions that can be asked of a grammar as a whole.

Production 0 leads to the start symbol and is there once a start symbol is set.  Each table lists
its names in the order in which they came in.  First and follow sets are computed once and kept, and
what a failed request had done to the grammar stays.
-/

namespace Pl0Kit.Lalr

inductive Assoc where
  | left | right | nonassoc
  deriving DecidableEq, Inhabited, Repr

namespace Assoc

def word : Assoc → String
  | left => "left"
  | right => "right"
  | nonassoc => "nonassoc"

def ofWord? : String → Option Assoc
  | "left" => some left
  | "right" => some right
  | "nonassoc" => some nonassoc
  | _ => none

end Assoc

structure Rank where
  assoc : Assoc := .right
  level : Int := 0
  deriving DecidableEq, Inhabited, Repr

structure Production where
  number : Nat
  name : String
  syms : List String
  rank : Rank := {}
  func : Option String := none
  place : Place := {}
  /-- how often the tables reduce by it -/
  reduced : Int := 0
  /-- number of the closure that took it in last -/
  mark : Nat := 0
  deriving Inhabited, Repr

namespace Production

def text (p : Production) : String :=
  p.name ++ " -> " ++ if p.syms.isEmpty then "<empty>" else Text.joinWith " " p.syms

end Production

structure Grammar where
  /-- production 0 -/
  root : Option Production := none
  /-- productions from number 1 on -/
  rules : List Production := []
  /-- numbers of the rules that use a terminal -/
  terminals : Ordered String (List Nat) := []
  nonterminals : Ordered String (List Nat) := []
  precedence : Ordered String Rank := []
  usedPrecedence : List String := []
  first : Ordered String (List String) := []
  follow : Ordered String (List String) := []
  deriving Inhabited

abbrev GrammarM (α : Type) := ExceptT BuildFault (StateM Grammar) α

def errorSymbol : String := "error"

def endSymbol : String := "$end"

def rootName : String := "S'"

def emptyMark : String := "<empty>"

/-- letters, digits, underscores and hyphens; a newline may follow them -/
def isIdentifier (s : String) : Bool :=
  let ok (cs : List Char) : Bool :=
    !cs.isEmpty && cs.all fun c => c.isAlphanum || c == '_' || c == '-'
  let cs := s.toList
  ok cs || (cs.getLast? == some '\n' && ok cs.dropLast)

namespace Grammar

def ofTerminals (ts : List String) : Grammar :=
  { terminals := (ts.foldl (fun d t => Ordered.put d t []) []).put errorSymbol [] }

def size (g : Grammar) : Nat := g.rules.length + 1

def isTerminal (g : Grammar) (s : String) : Bool := g.terminals.has s
def isNonterminal (g : Grammar) (s : String) : Bool := g.nonterminals.has s

def rulesFor (g : Grammar) (n : String) : List Production := g.rules.filter (·.name == n)

def ruleNames (g : Grammar) : List String := distinct (g.rules.map (·.name))

def hasRules (g : Grammar) (n : String) : Bool := g.rules.any (·.name == n)

def production? (g : Grammar) : Nat → Option Production
  | 0 => g.root
  | n + 1 => g.rules[n]?

/-- all productions; none at the head while there is no start symbol -/
def productions (g : Grammar) : List (Option Production) := g.root :: g.rules.map some

def modifyRule (g : Grammar) (n : Nat) (f : Production → Production) : Grammar :=
  match n with
  | 0 => { g with root := g.root.map f }
  | n + 1 => { g with rules := g.rules.modify n f }

/-- the production at a place that may count from the end -/
def at? (g : Grammar) (i : Int) : Except BuildFault (Option Production) :=
  let n : Int := g.size
  let j := if i < 0 then i + n else i
  if 0 ≤ j ∧ j < n then .ok (g.production? j.toNat) else .error .outOfRange

end Grammar

/-! ## making a grammar -/

def setPrecedence (term assoc : String) (level : Int) : GrammarM Unit := do
  let g ← get
  if g.root.isSome || !g.rules.isEmpty then throw .assertion
  if g.precedence.has term then throw (.precedenceTwice term)
  match Assoc.ofWord? assoc with
  | none => throw .badAssociativity
  | some a => set { g with precedence := g.precedence.put term ⟨a, level⟩ }

/-- a symbol of a right side: a quoted character is a terminal of its own -/
def readSymbol (place : Place) (rule s : String) : GrammarM String := do
  let literal? ← match s.toList with
    | [] => throw .outOfRange
    | c :: _ => pure (if c == '\'' || c == '"' then Text.readLiteral? s else none)
  match literal? with
  | some c =>
    if c.length > 1 then throw (.rule place (.longLiteral s rule))
    modify fun g => { g with terminals := g.terminals.ensure c [] }
    pure c
  | none =>
    if isIdentifier s || s == "%prec" then pure s else throw (.rule place (.badSymbol s rule))

/-- the rank of a rule and its right side: given by `%prec` at the end, or by the last terminal -/
def ruleRank (place : Place) (syms : List String) : GrammarM (Rank × List String) := do
  let g ← get
  if syms.contains "%prec" then
    match syms.reverse with
    | term :: mark :: _ =>
      if term == "%prec" then throw (.rule place .nothingAfterPrec)
      if mark != "%prec" then throw (.rule place .precNotLast)
      match g.precedence.get? term with
      | none => throw (.rule place (.unknownPrec term))
      | some r =>
        set { g with usedPrecedence := addNew g.usedPrecedence term }
        pure (r, syms.dropLast.dropLast)
    | _ => throw (.rule place .nothingAfterPrec)
  else
    let r := (syms.reverse.find? g.isTerminal).bind g.precedence.get?
    pure (r.getD {}, syms)

def noteUse (n : Nat) (g : Grammar) (s : String) : Grammar :=
  if g.isTerminal s then { g with terminals := g.terminals.alter s [] (· ++ [n]) }
  else { g with nonterminals := g.nonterminals.alter s [] (· ++ [n]) }

def addProduction (name : String) (syms : List String) (func : Option String) (place : Place) :
    GrammarM Unit := do
  if (← get).isTerminal name then throw (.rule place (.nameIsToken name))
  if !isIdentifier name then throw (.rule place (.badName name))
  let syms ← syms.mapM (readSymbol place name)
  let (rank, syms) ← ruleRank place syms
  let g ← get
  match g.rules.find? fun p => p.name == name && p.syms == syms with
  | some p => throw (.rule place (.duplicate p.text p.place))
  | none =>
    let g := { g with nonterminals := g.nonterminals.ensure name [] }
    let g := syms.foldl (noteUse g.size) g
    let p : Production := { number := g.size, name, syms, rank, func, place }
    set { g with rules := g.rules ++ [p] }

def setStart (start : Option String) : GrammarM Unit := do
  let g ← get
  let start ← match start.filter (!·.isEmpty) with
    | some s => pure s
    | none =>
      match g.rules with
      | [] => throw .outOfRange
      | p :: _ => pure p.name
  if !g.isNonterminal start then throw (.undefinedStart start)
  set { g with
    root := some { number := 0, name := rootName, syms := [start] }
    nonterminals := g.nonterminals.alter start [] (· ++ [0]) }

/-! ## questions -/

namespace Grammar

/-- Symbols reached from the symbols in `todo`, those in `seen` included.  Each step takes up one
rule's symbols, so `fuel` need not exceed the number of symbols in the rules. -/
def reach (g : Grammar) : Nat → List String → List String → List String
  | 0, seen, _ => seen
  | _, seen, [] => seen
  | fuel + 1, seen, s :: todo =>
    if seen.contains s then g.reach fuel seen todo
    else g.reach fuel (s :: seen) ((g.rulesFor s).flatMap (·.syms) ++ todo)

def unreachable (g : Grammar) : Except BuildFault (List String) :=
  match g.root with
  | none => .error .noSuchField
  | some p =>
    let fuel := g.rules.foldl (fun n p => n + p.syms.length) 2
    let seen := g.reach fuel [] p.syms
    .ok (g.nonterminals.keys.filter fun s => !seen.contains s)

/-- one round: names with a rule all of whose symbols are known to end -/
def spreadEnding (g : Grammar) (ends : Ordered String Bool) : Ordered String Bool :=
  g.ruleNames.foldl (fun d n =>
    if (g.rulesFor n).any fun p => p.syms.all fun s => (d.get? s).getD false then d.put n true
    else d) ends

def spreadRounds (g : Grammar) : Nat → Ordered String Bool → Ordered String Bool
  | 0, d => d
  | n + 1, d => g.spreadRounds n (g.spreadEnding d)

def endless (g : Grammar) : List String :=
  let known : Ordered String Bool :=
    (g.terminals.keys ++ [endSymbol]).foldl (fun d t => Ordered.put d t true) []
  let known := g.nonterminals.keys.foldl (fun d n => Ordered.put d n false) known
  let ends := g.spreadRounds (g.nonterminals.length + 1) known
  (ends.filter fun e => !e.2 && (g.hasRules e.1 || g.isTerminal e.1 || e.1 == errorSymbol)).map
    Prod.fst

/-- symbols used without being a terminal or having rules, with the production that uses them -/
def undefinedSymbols (g : Grammar) : List (String × Production) :=
  (g.productions.filterMap id).flatMap fun p =>
    (p.syms.filter fun s => !g.hasRules s && !g.isTerminal s && s != errorSymbol).map (·, p)

def unusedTerminals (g : Grammar) : List String :=
  (g.terminals.filter fun e => e.1 != errorSymbol && e.2.isEmpty).map Prod.fst

/-- the first rule of each nonterminal that no rule uses -/
def unusedRules (g : Grammar) : Except BuildFault (List Production) :=
  (g.nonterminals.filter (·.2.isEmpty)).mapM fun e =>
    match g.rulesFor e.1 with
    | p :: _ => .ok p
    | [] => .error .missing

def unusedPrecedence (g : Grammar) : List (String × Assoc) :=
  (g.precedence.filter fun e => !g.isTerminal e.1 && !g.usedPrecedence.contains e.1).map
    fun e => (e.1, e.2.assoc)

end Grammar

end Pl0Kit.Lalr
