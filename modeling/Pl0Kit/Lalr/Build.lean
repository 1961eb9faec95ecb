import Pl0Kit.Lalr.Parser
import Pl0Kit.Lalr.RuleText
import Pl0Kit.Text.Template
import Pl0Kit.Text.SourceLines

/-!
# Building parsers

From a specification to a parser: the specification is checked, its rules make a grammar, the
grammar is checked, and tables are made from it.  Problems go to a log of errors and warnings, and
the grammar, its tables and its conflicts to a second log for the author of the grammar.

Tables saved earlier are taken over if their fingerprint is that of the specification.
-/

namespace Pl0Kit.Lalr

structure BuildOptions where
  method : String := "LALR"
  /-- keep the second log -/
  debug : Bool := true
  /-- overrides the specification's start symbol -/
  start : Option Value := none
  checkRecursion : Bool := true
  /-- take over saved tables whatever their fingerprint -/
  optimize : Bool := false
  writeTables : Bool := false
  /-- binary file for tables, instead of a text file -/
  binaryFile : Option String := none
  tableModule : String := "parsetab"
  outputDir : String := ""
  deriving Inhabited

structure BuildWork where
  files : Directory := []
  errorLog : String := ""
  debugLog : String := ""
  /-- written to the error stream -/
  complaints : String := ""
  deriving Inhabited

abbrev BuildM (α : Type) := ExceptT BuildFault (StateM BuildWork) α

namespace BuildM

def logError (s : String) : BuildM Unit :=
  modify fun w => { w with errorLog := w.errorLog ++ "ERROR: " ++ s ++ "\n" }

def logWarning (s : String) : BuildM Unit :=
  modify fun w => { w with errorLog := w.errorLog ++ "WARNING: " ++ s ++ "\n" }

def logTemplate (s : String) : BuildM Unit :=
  match Text.fillTemplate s with
  | .ok t => logError t
  | .error .noArgument | .error .leftOver => throw .wrongType
  | .error .incomplete | .error .unknownConversion => throw .badValue

def lift {α : Type} (r : Except BuildFault α) : BuildM α := ExceptT.mk (pure r)

/-- whether a fault is one of the grammar's own, which are logged and collected -/
def isGrammarFault : BuildFault → Bool
  | .rule .. => true
  | .precedenceTwice _ => true
  | .badAssociativity => true
  | .undefinedStart _ => true
  | _ => false

end BuildM

open BuildM

/-! ## what a specification holds -/

structure Named where
  name : String
  function : Function
  deriving Inhabited

namespace Spec

def value? (s : Spec) (n : String) : Option Value := (Ordered.get? s n).bind Entry.value?

def given? (s : Spec) (n : String) : Option Value :=
  match s.value? n with
  | some .none => none
  | r => r

def startsWith (mark : String) (n : String) : Bool := mark.toList.isPrefixOf n.toList

def ruleFunctions (s : Spec) : List Named :=
  let fs : List Named := s.filterMap fun (n, e) =>
    match e with
    | .function f => if startsWith "p_" n && n != "p_error" then some ⟨n, f⟩ else none
    | .value _ => none
  fs.mergeSort fun a b =>
    if a.function.line != b.function.line then a.function.line < b.function.line
    else if a.function.file != b.function.file then a.function.file < b.function.file
    else a.name ≤ b.name

def onError (s : Spec) : Option Entry := (Ordered.get? s "p_error").filter Entry.isSet

end Spec

def items? : Value → Option (List Value)
  | .list xs => some xs
  | .tuple xs => some xs
  | _ => none

def specTokens (s : Spec) : BuildM (List Value) := do
  match (s.value? "tokens").filter Value.truthy with
  | none =>
    logError "No token list is defined"
    throw .unableToBuild
  | some v =>
    match items? v with
    | some ts => pure ts
    | none =>
      logError "tokens must be a list or tuple"
      throw .unableToBuild

/-- the pieces of text that a value consists of, if it consists of texts -/
def pieces? : Value → Option (List String)
  | .str s => some (s.toList.map String.singleton)
  | .list xs => xs.mapM fun v => match v with | .str s => some s | _ => none
  | .tuple xs => xs.mapM fun v => match v with | .str s => some s | _ => none
  | .dict es => es.mapM fun e => match e.1 with | .str s => some s | _ => none
  | _ => none

def precedenceText? (v : Value) : Option String :=
  let parts : Option (List Value) := match v with
    | .str s => some (s.toList.map fun c => .str (String.singleton c))
    | .list xs => some xs
    | .tuple xs => some xs
    | .dict es => some (es.map Prod.fst)
    | _ => none
  (parts.bind fun ps => ps.mapM fun p => (pieces? p).map String.join).map String.join

/-- whether a fingerprint can take a text in -/
def isLatin (s : String) : Bool := s.toList.all fun c => c.toNat < 256

/-- joins texts up to the first that is missing or cannot be taken in -/
def joinWhile : List (Option String) → String
  | [] => ""
  | none :: _ => ""
  | some s :: rest => if isLatin s then s ++ joinWhile rest else ""

def fingerprint (s : Spec) (tokens : List Value) : Except BuildFault String :=
  let rest : List (Option String) :=
    (match (s.given? "precedence").filter Value.truthy with
      | some v => [precedenceText? v]
      | none => []) ++
    (pieces? (.list tokens)).map (Text.joinWith " ") ::
    s.ruleFunctions.filterMap fun n => (n.function.doc.filter (!·.isEmpty)).map some
  match (s.given? "start").filter Value.truthy with
  | none => .ok (joinWhile rest)
  | some (.str t) => .ok (joinWhile (some t :: rest))
  | some _ => .error .noSuchField

/-! ## checks of a specification -/

structure PrecedenceEntry where
  term : String
  assoc : String
  level : Nat

def checkLevel (level : Nat) (v : Value) : Except String (List PrecedenceEntry) :=
  match items? v with
  | none => .error "Bad precedence table"
  | some (a :: t :: ts) =>
    match a with
    | .str assoc => (t :: ts).mapM fun x =>
      match x with
      | .str term => .ok ⟨term, assoc, level⟩
      | _ => .error "precedence items must be strings"
    | _ => .error "precedence associativity must be a string"
  | some _ => .error ("Malformed precedence entry " ++ v.text ++
      ". Must be (assoc, term, ..., term)")

def checkLevels : Nat → List Value → Except String (List PrecedenceEntry)
  | _, [] => .ok []
  | n, v :: vs => do return (← checkLevel n v) ++ (← checkLevels (n + 1) vs)

def checkPrecedence (s : Spec) : Except String (List PrecedenceEntry) :=
  match (s.given? "precedence").filter Value.truthy with
  | none => .ok []
  | some v =>
    match items? v with
    | none => .error "precedence must be a list or tuple"
    | some ls => checkLevels 1 ls

def warnRepeated (seen : List Value) : List Value → BuildM Unit
  | [] => pure ()
  | v :: vs => do
    if !v.isKey then throw .wrongType
    if seen.any (·.same v) then logWarning ("Token '" ++ v.text ++ "' multiply defined")
    warnRepeated (v :: seen) vs

structure SpecRule where
  func : String
  rule : RuleText
  deriving Inhabited

structure Checked where
  failed : Bool := false
  /-- files of the functions, in the order met -/
  files : List String := []
  rules : List SpecRule := []
  precedence : List PrecedenceEntry := []
  deriving Inhabited

def checkStart (s : Spec) : BuildM Unit := do
  match s.given? "start" with
  | none => pure ()
  | some (.str _) => pure ()
  | some _ => logError "'start' must be a string"

def checkOnError (s : Spec) (c : Checked) : BuildM Checked := do
  match s.onError with
  | none => pure c
  | some (.value _) =>
    logError "'p_error' defined, but is not a function or method"
    pure { c with failed := true }
  | some (.function f) =>
    let c := { c with files := addNew c.files f.file }
    if f.args == 1 then pure c
    else
      logError (f.file ++ ":" ++ Text.intText f.line ++ ": p_error() requires 1 argument")
      pure { c with failed := true }

def checkTokens (tokens : List Value) (c : Checked) : BuildM Checked := do
  if tokens.any (·.same (.str errorSymbol)) then
    logError "Illegal token name 'error'. Is a reserved word"
    pure { c with failed := true }
  else
    warnRepeated [] tokens
    pure c

def checkFunction (c : Checked) (n : Named) : BuildM Checked := do
  let f := n.function
  let place := f.file ++ ":" ++ Text.intText f.line ++ ": "
  if f.args > 1 then
    logError (place ++ "Rule '" ++ n.name ++ "' has too many arguments")
    pure { c with failed := true }
  else if f.args < 1 then
    logError (place ++ "Rule '" ++ n.name ++ "' requires an argument")
    pure { c with failed := true }
  else
    match f.doc.filter (!·.isEmpty) with
    | none =>
      logWarning (place ++ "No documentation string specified in function '" ++ n.name ++
        "' (ignored)")
      pure c
    | some doc =>
      let files := addNew c.files f.file
      match readRules doc f.file f.line with
      | .ok rs => pure { c with files, rules := c.rules ++ rs.map (⟨n.name, ·⟩) }
      | .error e =>
        logTemplate (e.message.getD "")
        pure { c with files, failed := true }

def blankPieces (s : String) : List String := s.splitOn " "

/-- warns of names that look as if they were meant as rules -/
def checkName (n : String) (e : Entry) : BuildM Unit := do
  match e with
  | .value _ =>
    if !Spec.startsWith "t_" n && Spec.startsWith "p_" n && n != "p_error" then
      logWarning ("'" ++ n ++ "' not defined as a function")
  | .function f =>
    if !Spec.startsWith "p_" n && !Spec.startsWith "t_" n && f.args == 1 then
      match f.doc.map blankPieces with
      | some (_ :: ":" :: _) =>
        logWarning (f.file ++ ":" ++ Text.intText f.line ++ ": Possible grammar rule '" ++ n ++
          "' defined without p_ prefix")
      | _ => pure ()

def checkFunctions (s : Spec) (c : Checked) : BuildM Checked := do
  match s.ruleFunctions with
  | [] =>
    logError "no rules of the form p_rulename are defined"
    pure { c with failed := true }
  | fs =>
    let c ← fs.foldlM checkFunction c
    s.forM fun (n, e) => checkName n e
    pure c

def warnRedefined (file : String) (n : Nat) (seen : Ordered String Nat) :
    List (List Char) → BuildM Unit
  | [] => pure ()
  | l :: ls =>
    match Text.functionIn? "p_" l with
    | none => warnRedefined file (n + 1) seen ls
    | some name =>
      match seen.get? name with
      | none => warnRedefined file (n + 1) (seen.put name n) ls
      | some first => do
        logWarning (file ++ ":" ++ toString n ++ ": Function " ++ name ++
          " redefined. Previously defined on line " ++ toString first)
        warnRedefined file (n + 1) seen ls

/-- looks through the files of the functions, up to the first that is none -/
def checkFiles : List String → BuildM Unit
  | [] => pure ()
  | f :: fs => do
    if Text.isSourceFile f then
      match Ordered.get? (← get).files f with
      | some d =>
        warnRedefined f 1 [] (Text.newlineLines (Text.unifyNewlines (d.shown "").toList))
      | none => pure ()
      checkFiles fs

def checkSpec (s : Spec) (tokens : List Value) : BuildM Checked := do
  checkStart s
  let c ← checkOnError s {}
  let c ← checkTokens tokens c
  let c ← match checkPrecedence s with
    | .ok ps => pure { c with precedence := ps }
    | .error m => do
      logError m
      pure { c with failed := true }
  let c ← checkFunctions s c
  checkFiles c.files
  pure c

/-! ## grammar and tables -/

/-- runs a request on the grammar; the grammar's own faults are logged -/
def onGrammar {α : Type} (g : Grammar) (m : GrammarM α) (log : String → BuildM Unit) :
    BuildM (Option α × Grammar) := do
  match m.run.run g with
  | (.ok a, g') => pure (some a, g')
  | (.error e, g') =>
    if isGrammarFault e then
      log (e.message.getD "")
      pure (none, g')
    else throw e

/-- the start symbol as a name; other values can only be refused -/
def startName (v : Value) : Except BuildFault (Option String) :=
  if !v.truthy then .ok none
  else
    match v with
    | .str s => .ok (some s)
    | .tuple [x] => .error (.undefinedStart x.text)
    | .tuple _ => .error .wrongType
    | _ => if v.isKey then .error (.undefinedStart v.text) else .error .wrongType

def makeGrammar (o : BuildOptions) (s : Spec) (tokens : List Value) (c : Checked) :
    BuildM Grammar := do
  let g := Grammar.ofTerminals (tokens.map Value.text)
  let g ← c.precedence.foldlM (fun g p => do
    let r ← onGrammar g (setPrecedence p.term p.assoc p.level) logWarning
    pure r.2) g
  let (g, failed) ← c.rules.foldlM (fun (g, failed) (r : SpecRule) => do
    let a ← onGrammar g (addProduction r.rule.name r.rule.syms (some r.func) r.rule.place) logError
    pure (a.2, failed || a.1.isNone)) (g, false)
  let start := match o.start with
    | some v => v
    | none => (s.value? "start").getD .none
  let a ← onGrammar g (do setStart (← liftE (startName start))) logTemplate
  if failed || a.1.isNone then throw .unableToBuild
  pure a.2

def logInfo (o : BuildOptions) (s : String) : BuildM Unit :=
  if o.debug then modify fun w => { w with debugLog := w.debugLog ++ s ++ "\n" } else pure ()

def counted (n : Nat) (one many : String) : BuildM Unit := do
  if n == 1 then logWarning one
  if n > 1 then logWarning many

def usesLines (o : BuildOptions) (title : String) (uses : Ordered String (List Nat)) :
    BuildM Unit := do
  logInfo o ""
  logInfo o title
  logInfo o ""
  (uses.mergeSort fun a b => a.1 ≤ b.1).forM fun (n, rules) =>
    logInfo o (Text.padRight 20 n ++ " : " ++ Text.joinWith " " (rules.map toString))

/-- checks a grammar as a whole and lists it; tokens that are not all texts have no order -/
def checkGrammar (o : BuildOptions) (tokens : List Value) (g : Grammar) : BuildM Unit := do
  let undefinedSymbols := g.undefinedSymbols
  undefinedSymbols.forM fun (s, p) =>
    logError (p.place.text ++ ": Symbol '" ++ s ++ "' used, but not defined as a token or a rule")
  let unused := g.unusedTerminals
  if !unused.isEmpty then
    logInfo o ""
    logInfo o "Unused terminals:"
    logInfo o ""
    unused.forM fun t => do
      logWarning ("Token '" ++ t ++ "' defined, but not used")
      logInfo o ("    " ++ t)
  logInfo o ""
  logInfo o "Grammar"
  logInfo o ""
  (g.productions.filterMap id).forM fun p =>
    logInfo o ("Rule " ++ Text.padRight 5 (toString p.number) ++ " " ++ p.text)
  let unusedRules ← lift g.unusedRules
  unusedRules.forM fun p =>
    logWarning (p.place.text ++ ": Rule '" ++ p.name ++ "' defined, but not used")
  counted unused.length "There is 1 unused token"
    ("There are " ++ toString unused.length ++ " unused tokens")
  counted unusedRules.length "There is 1 unused rule"
    ("There are " ++ toString unusedRules.length ++ " unused rules")
  if o.debug && (pieces? (.list tokens)).isNone then
    usesLines o "Terminals, with rules where they appear" []
    throw .wrongType
  usesLines o "Terminals, with rules where they appear" g.terminals
  usesLines o "Nonterminals, with rules where they appear" g.nonterminals
  logInfo o ""
  let endless ← if o.checkRecursion then do
      (← lift g.unreachable).forM fun s => logWarning ("Symbol '" ++ s ++ "' is unreachable")
      let endless := g.endless
      endless.forM fun s => logError ("Infinite recursion detected for symbol '" ++ s ++ "'")
      pure (!endless.isEmpty)
    else pure false
  let unusedPrec := g.unusedPrecedence
  unusedPrec.forM fun (t, a) =>
    logError ("Precedence rule '" ++ a.word ++ "' defined for unknown symbol '" ++ t ++ "'")
  if !undefinedSymbols.isEmpty || endless || !unusedPrec.isEmpty then throw .unableToBuild

def logBoth (o : BuildOptions) (s : String) : BuildM Unit := do
  logInfo o ("WARNING: " ++ s)
  logWarning s

def reportConflicts (o : BuildOptions) (g : Grammar) (t : Table) : BuildM Unit := do
  let sr := t.shiftReduce.length
  counted sr "1 shift/reduce conflict" (toString sr ++ " shift/reduce conflicts")
  let rr := t.reduceReduce.length
  counted rr "1 reduce/reduce conflict" (toString rr ++ " reduce/reduce conflicts")
  if sr + rr > 0 then
    logInfo o "WARNING: "
    logInfo o "WARNING: Conflicts:"
    logInfo o "WARNING: "
    t.shiftReduce.forM fun c =>
      logInfo o ("WARNING: shift/reduce conflict for " ++ c.symbol ++ " in state " ++
        toString c.state ++ " resolved as " ++ c.resolution.word)
    let ruleText (n : Nat) : String := ((g.production? n).map (·.text)).getD ""
    let distinctConflicts :=
      distinct (t.reduceReduce.map fun c => (c.state, c.chosen, c.rejected))
    distinctConflicts.forM fun (st, chosen, rejected) => do
      let first := "reduce/reduce conflict in state " ++ toString st ++ " resolved using rule (" ++
        ruleText chosen ++ ")"
      let second := "rejected rule (" ++ ruleText rejected ++ ") in state " ++ toString st
      logInfo o ("WARNING: " ++ first)
      logInfo o ("WARNING: " ++ second)
      logWarning first
      logWarning second
    let never := distinct ((t.reduceReduce.map (·.rejected)).filter fun n =>
      ((g.production? n).map (·.reduced)).getD 0 == 0)
    never.forM fun n => logBoth o ("Rule (" ++ ruleText n ++ ") is never reduced")

def writeTable (o : BuildOptions) (t : SavedTable) : BuildM Unit := do
  let base := (o.tableModule.splitOn ".").getLast?.getD ""
  let file := if o.outputDir.isEmpty then base ++ ".py"
    else if o.outputDir.toList.getLast? == some '/' then o.outputDir ++ base ++ ".py"
    else o.outputDir ++ "/" ++ base ++ ".py"
  if o.outputDir.isEmpty || o.outputDir == "." || o.outputDir == "./" then
    modify fun w => { w with files := Ordered.put w.files (base ++ ".py") (.table file t) }
  else
    modify fun w => { w with complaints := w.complaints ++ "Unable to create '" ++ file ++
      "'\n[Errno 2] No such file or directory: '" ++ file ++ "'\n" }

def generateTables (o : BuildOptions) (s : Spec) (tokens : List Value) (print : String) :
    BuildM Parser := do
  logInfo o "Created by PLY version 3.4 (http://www.dabeaz.com/ply)"
  let c ← checkSpec s tokens
  if c.failed then throw .unableToBuild
  if s.onError.isNone then logWarning "no p_error() function is defined"
  let g ← makeGrammar o s tokens c
  checkGrammar o tokens g
  if o.debug then
    modify fun w => { w with errorLog := w.errorLog ++ "Generating " ++ o.method ++ " tables\n" }
  let run := runTable o.method g
  let g := run.grammar
  if o.debug then modify fun w => { w with debugLog := w.debugLog ++ run.log }
  match run.outcome with
  | .error e => throw e
  | .ok t =>
    if o.debug then reportConflicts o g t
    let productions := g.productions.filterMap id
    let saved : SavedTable :=
      { method := t.method, fingerprint := print, actions := t.actions, gotos := t.gotos
        rules := productions.map SavedRule.ofProduction }
    match o.binaryFile with
    | some f => modify fun w => { w with files := Ordered.put w.files f (.binary saved) }
    | none => if o.writeTables then writeTable o saved
    pure {
      productions := (productions.map fun p =>
        { text := p.text, shown := "Production(" ++ p.text ++ ")", name := p.name
          length := p.syms.length, func := p.func, line := some p.place.line
          call := p.func.bind (Ordered.get? s) }).toArray
      actions := t.actions, gotos := t.gotos, onError := s.onError }

/-- a parser from saved tables; the name of a function that is not there if one is missing -/
def parserOfSaved (s : Spec) (t : SavedTable) : Except String Parser := do
  let productions ← t.rules.mapM fun r => do
    let call ← match r.source with
      | none => .ok none
      | some (f, _) =>
        match Ordered.get? s f with
        | some e => .ok (some e)
        | none => .error f
    pure { text := r.text, shown := "MiniProduction(" ++ r.text ++ ")", name := r.name
           length := r.length, func := r.source.map Prod.fst
           line := r.source.map (·.2.line), call : ParserProduction }
  pure { productions := productions.toArray, actions := t.actions, gotos := t.gotos
         onError := s.onError }

def outdatedText : String :=
  "(<class 'ply.yacc.VersionError'>, VersionError('yacc table file version is out of date')," ++
    " <traceback object at 0x>)"

def buildParser (o : BuildOptions) (s : Spec) : BuildM Parser := do
  let tokens ← specTokens s
  let print ← lift (fingerprint s tokens)
  let files := (← get).files
  let loaded := match o.binaryFile with
    | some f => files.loadBinary f
    | none => files.loadText o.tableModule
  match loaded with
  | .table t =>
    if o.optimize || t.fingerprint == print then
      match parserOfSaved s t with
      | .ok p => return p
      | .error f =>
        logWarning ("There was a problem loading the table file: KeyError(" ++ Text.quote f ++ ")")
  | .outdated => logWarning outdatedText
  | .nothing => pure ()
  generateTables o s tokens print

end Pl0Kit.Lalr
