import Pl0Kit.Scanner.Saved
import Pl0Kit.Text.SourceLines

/-!
# Building scanners

From a specification to a scanner: names that start with `t_` are rules, for the states that the
name lists and the kind of token that it ends in.  Functions come first, in the order of their
lines, then the other rules with the longest expressions first; the rules of a state are joined into
one expression, or into several where one would not do.
-/

namespace Pl0Kit.Scanner

structure BuildOptions where
  debug : Bool := false
  /-- leave out the checks, and use a saved scanner or save one -/
  optimize : Bool := false
  flags : Int := 0
  /-- the module that a scanner is saved as; none if empty -/
  tableModule : String := "lextab"
  deriving Inhabited

structure BuildWork where
  files : Directory := []
  errorLog : String := ""
  debugLog : String := ""
  /-- both logs in one, in the order of writing -/
  jointLog : String := ""
  failed : Bool := false
  deriving Inhabited

inductive BuildFault where
  /-- problems that were logged one by one -/
  | unableToBuild
  /-- an expression that cannot be split further -/
  | hopeless
  | other (f : Fault)
  deriving Inhabited

abbrev BuildM (α : Type) := ExceptT BuildFault (StateM BuildWork) α

namespace BuildM

def note (line : String) : BuildM Unit :=
  modify fun w => { w with
    errorLog := w.errorLog ++ line ++ "\n", jointLog := w.jointLog ++ line ++ "\n" }

def logWarning (s : String) : BuildM Unit := note ("WARNING: " ++ s)

def logError (s : String) : BuildM Unit := do
  note ("ERROR: " ++ s)
  modify fun w => { w with failed := true }

def logInfo (o : BuildOptions) (s : String) : BuildM Unit :=
  if o.debug then modify fun w => { w with
      debugLog := w.debugLog ++ s ++ "\n", jointLog := w.jointLog ++ s ++ "\n" }
  else pure ()

end BuildM

open BuildM

def flagsOf (n : Int) : Regex.Flags :=
  let bit (k : Nat) : Bool := n.toNat / k % 2 == 1
  { ignoreCase := bit 2, multiline := bit 8, dotAll := bit 16 }

/-- letters, digits and underscores; a newline may follow them -/
def isIdentifier (s : String) : Bool :=
  let ok (cs : List Char) : Bool := !cs.isEmpty && cs.all Text.isNamePart
  let cs := s.toList
  ok cs || (cs.getLast? == some '\n' && ok cs.dropLast)

/-! ## reading a specification -/

structure RuleName where
  name : String
  states : List String
  kind : String

def ruleName (stateNames : List String) (name : String) : RuleName :=
  let parts := name.splitOn "_"
  let isState (p : String) : Bool := stateNames.contains p || p == "ANY"
  let listed := ((parts.drop 1).dropLast).takeWhile isState
  let states := if listed.isEmpty then [initialState]
    else if listed.contains "ANY" then stateNames else listed
  ⟨name, states, Text.joinWith "_" (parts.drop (listed.length + 1))⟩

structure Info where
  spec : Spec
  tokens : List Value := []
  /-- how the tokens are listed in the log -/
  tokensShown : Value := .list []
  literals : Value := .str ""
  stateKinds : Ordered String String := [(initialState, "inclusive")]
  /-- the kind of token of each rule -/
  kinds : Ordered String String := []
  functions : Ordered String (List (String × Function)) := []
  patterns : Ordered String (List (String × String)) := []
  ignore : Ordered String String := []
  onError : Ordered String (Option Function) := []
  deriving Inhabited

def readTokens (i : Info) : BuildM Info := do
  match (i.spec.value? "tokens").filter Value.truthy with
  | none =>
    logError "No token list is defined"
    pure i
  | some v =>
    match v with
    | .list ts => pure { i with tokens := ts, tokensShown := v }
    | .tuple ts => pure { i with tokens := ts, tokensShown := v }
    | _ =>
      logError "tokens must be a list or tuple"
      pure i

def readState (i : Info) (v : Value) : BuildM Info := do
  match v with
  | .tuple [name, kind] =>
    match name with
    | .str n =>
      match kind with
      | .str k =>
        if k != "inclusive" && k != "exclusive" then
          logError ("State type for state " ++ n ++ " must be 'inclusive' or 'exclusive'")
          pure i
        else if i.stateKinds.has n then
          logError ("State '" ++ n ++ "' already defined")
          pure i
        else pure { i with stateKinds := i.stateKinds.put n k }
      | _ =>
        logError ("State type for state " ++ n ++ " must be 'inclusive' or 'exclusive'")
        pure i
    | _ =>
      logError ("State name " ++ name.quoted ++ " must be a string")
      pure i
  | _ =>
    logError ("Invalid state specifier " ++ v.quoted ++
      ". Must be a tuple (statename,'exclusive|inclusive')")
    pure i

def readStates (i : Info) : BuildM Info := do
  match (i.spec.value? "states").filter Value.truthy with
  | none => pure i
  | some (.list xs) => xs.foldlM readState i
  | some (.tuple xs) => xs.foldlM readState i
  | some _ =>
    logError "states must be defined as a tuple or list"
    pure i

def readRule (i : Info) (e : String × Entry) : BuildM Info := do
  let r := ruleName i.stateKinds.keys e.1
  let i := { i with kinds := i.kinds.put e.1 r.kind }
  match e.2 with
  | .function f =>
    if r.kind == "error" then
      pure { i with onError := r.states.foldl (fun d s => Ordered.put d s (some f)) i.onError }
    else if r.kind == "ignore" then
      logError (f.file ++ ":" ++ Text.intText f.line ++ ": Rule '" ++ f.name ++
        "' must be defined as a string")
      pure i
    else
      pure { i with functions :=
        r.states.foldl (fun d s => Ordered.alter d s [] (· ++ [(e.1, f)])) i.functions }
  | .value (.str t) =>
    if r.kind == "ignore" then
      if t.toList.contains '\\' then
        logWarning (e.1 ++ " contains a literal backslash '\\'")
      pure { i with ignore := r.states.foldl (fun d s => Ordered.put d s t) i.ignore }
    else if r.kind == "error" then
      logError ("Rule '" ++ e.1 ++ "' must be defined as a function")
      pure i
    else
      pure { i with patterns :=
        r.states.foldl (fun d s => Ordered.alter d s [] (· ++ [(e.1, t)])) i.patterns }
  | .value _ =>
    logError (e.1 ++ " not defined as a function or string")
    pure i

def readRules (i : Info) : BuildM Info := do
  let names := i.stateKinds.keys
  let i := { i with
    functions := names.map (·, []), patterns := names.map (·, []) }
  match i.spec.filter fun e => "t_".toList.isPrefixOf e.1.toList with
  | [] =>
    logError "No rules of the form t_rulename are defined"
    pure i
  | rules =>
    let i ← rules.foldlM readRule i
    pure { i with
      functions := i.functions.map fun e => (e.1, e.2.mergeSort fun a b => a.2.line ≤ b.2.line)
      patterns := i.patterns.map fun e => (e.1, e.2.mergeSort fun a b => b.2.length ≤ a.2.length) }

def readSpec (s : Spec) : BuildM Info := do
  let i ← readTokens { spec := s }
  let i := { i with literals := match Ordered.get? s "literals" with
    | some (.value v) => v
    | _ => .str "" }
  let i ← readStates i
  readRules i

/-! ## checks -/

def checkTokens (seen : List Value) : List Value → BuildM Unit
  | [] => pure ()
  | v :: vs => do
    match v with
    | .str n => if !isIdentifier n then logError ("Bad token name '" ++ n ++ "'")
    | _ => throw (.other .wrongType)
    if seen.any (·.same v) then logWarning ("Token '" ++ v.text ++ "' multiply defined")
    checkTokens (v :: seen) vs

def checkLiteral (v : Value) : BuildM Unit := do
  match v with
  | .str s =>
    if s.length > 1 then
      logError ("Invalid literal " ++ v.quoted ++ ". Must be a single character")
  | _ => logError ("Invalid literal " ++ v.quoted ++ ". Must be a single character")

def checkLiterals (v : Value) : BuildM Unit := do
  match v with
  | .str _ => pure ()
  | .list xs => xs.forM checkLiteral
  | .tuple xs => xs.forM checkLiteral
  | .dict es => es.forM fun e => checkLiteral e.1
  | _ =>
    logError "Invalid literals specification. literals must be a sequence of characters"

def groupText (name pattern : String) : String := "(?P<" ++ name ++ ">" ++ pattern ++ ")"

/-- checks an expression; `place` stands before the messages -/
def checkPattern (o : BuildOptions) (name pattern : String) (empty bad hint : String) :
    BuildM Unit := do
  match Regex.compile (groupText name pattern) (flagsOf o.flags) with
  | .ok r => if r.matchesEmpty then logError empty
  | .error _ =>
    logError (bad ++ ". <reason>")
    if pattern.toList.contains '#' then logError hint

def checkArgs (f : Function) : BuildM Bool := do
  let place := f.file ++ ":" ++ Text.intText f.line ++ ": Rule '" ++ f.name ++ "' "
  if f.args > 1 then
    logError (place ++ "has too many arguments")
    pure false
  else if f.args < 1 then
    logError (place ++ "requires an argument")
    pure false
  else pure true

def checkFunction (o : BuildOptions) (name : String) (f : Function) : BuildM Unit := do
  if ← checkArgs f then
    let place := f.file ++ ":" ++ Text.intText f.line
    match f.doc.filter (!·.isEmpty) with
    | none =>
      logError (place ++ ": No regular expression defined for rule '" ++ f.name ++ "'")
    | some doc =>
      checkPattern o name doc
        (place ++ ": Regular expression for rule '" ++ f.name ++ "' matches empty string")
        (place ++ ": Invalid regular expression for rule '" ++ f.name ++ "'")
        (place ++ ". Make sure '#' in rule '" ++ f.name ++ "' is escaped with '\\#'")

def holds (inner outer : List Char) : Bool :=
  match outer with
  | [] => inner.isEmpty
  | _ :: rest => inner.isPrefixOf outer || holds inner rest

def checkPatternRule (o : BuildOptions) (i : Info) (name pattern : String) : BuildM Unit := do
  let kind := (i.kinds.get? name).getD ""
  if !i.tokens.any (·.same (.str kind)) && !holds "ignore_".toList kind.toList then
    logError ("Rule '" ++ name ++ "' defined for an unspecified token " ++ kind)
  else
    checkPattern o name pattern
      ("Regular expression for rule '" ++ name ++ "' matches empty string")
      ("Invalid regular expression for rule '" ++ name ++ "'")
      ("Make sure '#' in rule '" ++ name ++ "' is escaped with '\\#'")

/-- checks the rules of a state; gives the files that its functions stand in -/
def checkState (o : BuildOptions) (i : Info) (state : String) : BuildM (List String) := do
  let functions := (i.functions.get? state).getD []
  let patterns := (i.patterns.get? state).getD []
  functions.forM fun e => checkFunction o e.1 e.2
  patterns.forM fun e => checkPatternRule o i e.1 e.2
  if functions.isEmpty && patterns.isEmpty then
    logError ("No rules defined for state '" ++ state ++ "'")
  let files := functions.map (·.2.file)
  match (i.onError.get? state).join with
  | some f =>
    let _ ← checkArgs f
    pure (files ++ [f.file])
  | none => pure files

def checkLines (file : String) (n : Nat) (seen : Ordered String Nat) :
    List (List Char) → BuildM Unit
  | [] => pure ()
  | l :: ls =>
    match (Text.functionIn? "t_" l).or (Text.assignedIn? "t_" l) with
    | none => checkLines file (n + 1) seen ls
    | some name =>
      match seen.get? name with
      | none => checkLines file (n + 1) (seen.put name n) ls
      | some first => do
        logError (file ++ ":" ++ toString n ++ ": Rule " ++ name ++
          " redefined. Previously defined on line " ++ toString first)
        checkLines file (n + 1) seen ls

def checkFile (file : String) : BuildM Unit := do
  if Text.isSourceFile file then
    match Ordered.get? (← get).files file with
    | some d => checkLines file 1 [] (Text.newlineLines (Text.unifyNewlines d.shown.toList))
    | none => pure ()

def checkInfo (o : BuildOptions) (i : Info) : BuildM Unit := do
  checkTokens [] i.tokens
  checkLiterals i.literals
  let files ← i.stateKinds.keys.mapM (checkState o i)
  (distinct files.flatten).forM checkFile
  if (← get).failed then throw .unableToBuild

/-! ## joining rules -/

/-- what the groups of a joined expression stand for -/
def targetsOf (i : Info) (r : Regex.Compiled) : Except Fault (List (Option Target)) := do
  let size := (r.names.map Prod.snd).foldl max 0 + 1
  let found ← r.names.mapM fun (name, n) =>
    match Ordered.get? i.spec name with
    | none => .ok (n, none)
    | some (.value .none) => .ok (n, none)
    | some e =>
      match e, i.kinds.get? name with
      | .function f, some k => .ok (n, some (Target.call name f k))
      | .function _, none => .error (.missingKey (.str name))
      | .value _, kind? =>
        if holds "ignore_".toList (name.toList.drop 1) then .ok (n, some (Target.ignored name))
        else
          match kind? with
          | some k => .ok (n, some (Target.plain name k))
          | none => .error (.missingKey (.str name))
  pure ((List.range size).map fun n => (Ordered.get? found n).join)

def joinedOf? (o : BuildOptions) (i : Info) (rules : List String) : Option Joined :=
  let text := Text.joinWith "|" rules
  match Regex.compile text (flagsOf o.flags) with
  | .error _ => none
  | .ok regex =>
    match targetsOf i regex with
    | .ok targets => some { regex, text, targets }
    | .error _ => none

/-- joins rules, in halves where they cannot be joined as a whole; `fuel` bounds their number -/
def joinRules (o : BuildOptions) (i : Info) : Nat → List String → Except BuildFault (List Joined)
  | 0, _ => .error .hopeless
  | fuel + 1, rules =>
    if rules.isEmpty then .error (.other .badValue)
    else
      match joinedOf? o i rules with
      | some j => .ok [j]
      | none =>
        if rules.length ≤ 1 then .error .hopeless
        else do
          let m := rules.length / 2
          return (← joinRules o i fuel (rules.take m)) ++ (← joinRules o i fuel (rules.drop m))

def stateRules (o : BuildOptions) (i : Info) (state : String) : BuildM (List String) := do
  let functions := ((i.functions.get? state).getD []).map fun e => (e.1, e.2.doc.getD "None")
  let all := functions ++ (i.patterns.get? state).getD []
  all.forM fun (name, pattern) =>
    logInfo o ("lex: Adding rule " ++ name ++ " -> '" ++ pattern ++ "' (state '" ++ state ++ "')")
  pure (all.map fun (name, pattern) => groupText name pattern)

def joinState (o : BuildOptions) (i : Info) (state : String) (rules : List String) :
    BuildM (List Joined) := do
  match joinRules o i (rules.length + 1) rules with
  | .error e => throw e
  | .ok js =>
    (js.zip (List.range js.length)).forM fun (j, n) =>
      logInfo o ("lex: state '" ++ state ++ "' : regex[" ++ toString n ++ "] = '" ++ j.text ++ "'")
    pure js

/-! ## building -/

/-- single characters that are tokens, as one text -/
def joinLiterals (v : Value) : Except Fault Value :=
  let join (xs : List Value) : Except Fault Value :=
    match xs with
    | [] => .error .outOfRange
    | .str _ :: _ =>
      match xs.mapM fun x => match x with | .str s => some s | _ => none with
      | some ss => .ok (.str (String.join ss))
      | none => .error .wrongType
    | _ => .error .noSuchField
  match v with
  | .list xs => join xs
  | .tuple xs => join xs
  | _ => .ok v

/-- warns of what a state is missing, and lets inclusive states take over the initial one's -/
def completeState (ignoring : String) (i : Info) (e : String × String) : BuildM Info := do
  let (state, kind) := e
  if kind == "exclusive" then
    if !i.onError.has state then
      logWarning ("No error rule is defined for exclusive state '" ++ state ++ "'")
    if !i.ignore.has state && !ignoring.isEmpty then
      logWarning ("No ignore rule is defined for exclusive state '" ++ state ++ "'")
    pure i
  else
    let i := { i with onError := i.onError.ensure state ((i.onError.get? initialState).join) }
    pure { i with ignore := i.ignore.ensure state ((i.ignore.get? initialState).getD "") }

def scannerOf (optimize : Bool) (s : Saved) : Scanner :=
  let start : Scanner :=
    { states := s.states, ignore := s.ignore, onError := s.onError
      kinds := if optimize then none else some (s.kinds.map Value.text)
      literals := s.literals }
  match start.begin initialState with
  | .ok sc => sc
  | .error _ => start

/-- a saved scanner with the functions of a specification -/
def rebind (spec : Spec) (s : Saved) : Except BuildFault Saved := do
  let function (name : String) : Except BuildFault Function :=
    match Ordered.get? spec name with
    | some (.function f) => .ok f
    | some (.value _) => .ok { name, args := -1 }
    | none => .error (.other (.missingKey (.str name)))
  let target (t : Option Target) : Except BuildFault (Option Target) :=
    match t with
    | some (.call rule _ kind) => do return some (.call rule (← function rule) kind)
    | t => .ok t
  let states ← s.states.mapM fun (n, js) => do
    let js ← js.mapM fun j => do return { j with targets := ← j.targets.mapM target }
    pure (n, js)
  let onError ← s.onError.mapM fun (n, f?) =>
    match f? with
    | some f => do return (n, some (← function f.name))
    | none => .error (.other (.missingKey .none))
  pure { s with states, onError }

def generate (o : BuildOptions) (i : Info) : BuildM Scanner := do
  logInfo o ("lex: tokens   = " ++ i.tokensShown.quoted)
  logInfo o ("lex: literals = " ++ i.literals.quoted)
  logInfo o ("lex: states   = " ++ (Saved.textTable i.stateKinds).quoted)
  let literals ← match joinLiterals i.literals with
    | .ok v => pure v
    | .error f => throw (.other f)
  let rules ← i.stateKinds.keys.mapM fun s => do return (s, ← stateRules o i s)
  logInfo o "lex: ==== MASTER REGEXS FOLLOW ===="
  let joined ← rules.mapM fun (s, rs) => do return (s, ← joinState o i s rs)
  let first := (Ordered.get? joined initialState).getD []
  let states := joined.map fun (s, js) =>
    if s != initialState && i.stateKinds.get? s == some "inclusive" then (s, js ++ first)
    else (s, js)
  if ((i.onError.get? initialState).join).isNone then logWarning "No t_error rule is defined"
  let ignoring := (i.ignore.get? initialState).getD ""
  let i ← i.stateKinds.foldlM (completeState ignoring) i
  let kinds := i.tokens.foldl (fun (seen : List Value) v =>
    if seen.any (·.same v) then seen else seen ++ [v]) []
  let saved : Saved :=
    { kinds, flags := o.flags, literals, stateKinds := i.stateKinds, states
      ignore := i.ignore, onError := i.onError }
  if o.optimize && !o.tableModule.isEmpty then
    modify fun w => { w with
      files := Ordered.put w.files (o.tableModule ++ ".py") (.saved o.tableModule saved) }
  pure (scannerOf o.optimize saved)

def buildScanner (o : BuildOptions) (s : Spec) : BuildM Scanner := do
  let i ← readSpec s
  if !o.optimize then checkInfo o i
  let files := (← get).files
  let saved? : Option FileData := if o.optimize && !o.tableModule.isEmpty then
      Ordered.get? files (o.tableModule ++ ".py") else none
  match saved? with
  | some (.saved _ saved) =>
    match rebind s saved with
    | .ok saved => pure (scannerOf true saved)
    | .error e => throw e
  | _ => generate o i

def prompt : String := "Reading from standard input (type EOF to end):\n"

def listTokens (fuel : Nat) : Nat → ScanM Unit
  | 0 => throw (.other .outOfFuel)
  | n + 1 => do
    match ← nextToken fuel with
    | none => pure ()
    | some t =>
      print ("(" ++ t.kind ++ "," ++ t.value.quoted ++ "," ++ Text.intText t.line ++ "," ++
        Text.intText t.pos ++ ")\n")
      listTokens fuel n

/-- The scanner as a program: the text is given, or is that of a file, or comes from standard
input. -/
def runMain (fuel : Nat) (data : String) (file : Option (Option String)) (stdin : String) :
    ScanM Unit := do
  let text ← if !data.isEmpty then pure data
    else match file with
      | some (some t) => pure (Text.fileText t)
      | some none => throw (.other .noSuchFile)
      | none => do
        print prompt
        pure stdin
  modifyScanner (·.input text)
  listTokens fuel fuel

/-- The scanner with its functions taken from another object that has the same rules: only the last
joined expression of each state is kept, and the state in use stays as it was until it changes. -/
def rebound (s : Scanner) (spec : Spec) : Except Fault Scanner := do
  let onError ← s.onError.mapM fun (n, f?) =>
    match f? with
    | none => .error Fault.noSuchField
    | some f =>
      match spec.find? fun e => match e.2 with | .function g => g.name == f.name | _ => false with
      | some _ => .ok (n, some f)
      | none => .error Fault.noSuchField
  pure { s with
    states := s.states.map fun (n, js) => (n, js.getLast?.toList)
    onError }

end Pl0Kit.Scanner
