import Pl0Kit.Measure.Verdict
import Pl0Kit.Text.Lines

/-!
# Rounds of measuring

A round takes what the measuring processes printed, reports on it, and adds a line to the record of
all rounds.  The report says which benchmarks spend too little time in the measured code, which ones
do not check themselves, and when a further round is not worth while.
-/

namespace Pl0Kit.Measure

/-- what became of a process -/
inductive Child where
  | ran (stdout stderr : String) (code : Int)
  | refused (text : String)
  deriving Inhabited

structure Given where
  coverage : Child
  coverageText : Option String := none
  /-- the text of the benchmarks -/
  benchText : Option String := none
  repoTime : Option Child := none
  selfCheck : Option Child := none
  now : Decimal
  elapsed : Decimal := .ofInt 0
  deriving Inhabited

structure Report where
  output : String := ""
  stderr : String := ""
  /-- the status that the round stops with -/
  exit : Option Int := none
  /-- what is added to the record -/
  appended : String := ""
  deriving Inhabited

abbrev RoundM (α : Type) := ExceptT Fault (StateM Report) α

def line (s : String) : RoundM Unit := modify fun r => { r with output := r.output ++ s ++ "\n" }

def complain (s : String) : RoundM Unit := modify fun r => { r with stderr := r.stderr ++ s }

def lift {α : Type} (r : Except Fault α) : RoundM α :=
  match r with
  | .ok a => pure a
  | .error f => throw f

/-! ## processes -/

def lastLine (text : String) : Option String :=
  (Text.lines (String.ofList (Text.trim text.toList))).getLast?

/-- what a process found: the object on the last line that it printed -/
def findings (name : String) (child : Option Child) : RoundM Json := do
  match child with
  | none => pure (.obj [])
  | some (.refused text) =>
    complain ("[" ++ name ++ " runner: RuntimeError: " ++ text ++ "]\n")
    pure (.obj [])
  | some (.ran stdout stderr _) =>
    complain stderr
    match lastLine stdout with
    | none => pure (.obj [])
    | some text =>
      match Json.read text with
      | .ok j => pure j
      | .error f =>
        complain ("[" ++ name ++ " runner: JSONDecodeError: " ++ Json.faultText text f ++ "]\n")
        pure (.obj [])

def entriesOf (j : Json) (key : String) : List (String × Json) :=
  match j.field? key with
  | some (.obj es) => es
  | _ => []

/-! ## coverage -/

/-- an object, or the fault of asking something else for a field -/
def objectField (j : Json) (key : String) : Except Fault (Option Json) :=
  match j with
  | .obj es => .ok (es.lookup key)
  | _ => .error .noSuchField

def natField (j : Json) (key : String) : Int :=
  match j.field? key with
  | some (.int n) => n
  | _ => 0

/-- the runs of consecutive numbers in a list in order: the present one starts at `first` -/
def runsFrom (first last : Int) : List Int → List (Int × Int)
  | [] => [(first, last)]
  | n :: ns => if n = last + 1 then runsFrom first n ns else (first, last) :: runsFrom n n ns

def runs : List Int → List (Int × Int)
  | [] => []
  | n :: ns => runsFrom n n ns

def runText (r : Int × Int) : String :=
  if r.1 = r.2 then Text.intText r.1 else Text.intText r.1 ++ "-" ++ Text.intText r.2

def missingText (j : Json) : String :=
  let ns := (Json.items (j.field? "missing_lines")).filterMap fun x =>
    match x with
    | .int n => some n
    | _ => none
  ", ".intercalate ((runs ns).map runText)

/-- one row of the table of coverage -/
def coverageRow (width : Nat) (name : String) (statements missed : Int) (percent : Decimal) :
    String :=
  Text.padRight width name ++ "  " ++ Text.padLeft 5 (Text.intText statements) ++ "  " ++
    Text.padLeft 4 (Text.intText missed) ++ "  " ++ Text.padLeft 4 (percent.fixed 0) ++ "%"

structure Coverage where
  percent : Decimal
  covered : Json
  statements : Json
  benches : Nat
  errors : Nat
  deriving Inhabited

/-- prints the table of coverage -/
def coverageTable (j : Json) (totals : Json) (percent : Decimal) : RoundM Unit := do
  let files := (entriesOf j "files").mergeSort fun a b => a.1 ≤ b.1
  let width := files.foldl (fun w f => max w f.1.length) 4
  let bar := String.ofList (List.replicate (width + 42) '-')
  line (Text.padRight width "Name" ++ "  Stmts  Miss  Cover  Missing")
  line bar
  files.forM fun (name, f) => do
    let summary := (f.field? "summary").getD (.obj [])
    let statements := natField summary "num_statements"
    let percent ← lift ((summary.field? "percent_covered").getD (.int 0)).decimal
    let row :=
      coverageRow width name statements (statements - natField summary "covered_lines") percent
    let missing := missingText f
    line (if missing.isEmpty then row else row ++ "  " ++ missing)
  line bar
  let statements := natField totals "num_statements"
  line (coverageRow width "TOTAL" statements (statements - natField totals "covered_lines") percent)

def readCoverage (text : String) : RoundM Coverage := do
  match Json.read text with
  | .error _ => throw .malformed
  | .ok j =>
    let totals := (← lift (objectField j "totals")).getD (.obj [])
    let percent ← lift (objectField totals "percent_covered")
    let percent ← lift (percent.getD (.int 0)).decimal
    coverageTable j totals percent
    let info := (j.field? "meta").getD (.obj [])
    pure {
      percent
      covered := (totals.field? "covered_lines").getD (.int 0)
      statements := (totals.field? "num_statements").getD (.int 0)
      benches := (natField info "_pti_n_benches").toNat
      errors := (entriesOf info "_pti_bench_errors").length }

/-! ## time in the measured code -/

/-- the least share of time, in percent, that is not too little -/
def leastShare : Decimal := .ofInt 45

def isBelow (d : Decimal) : Bool := d.lt leastShare && !d.lt (.ofInt 0)

/-- where else the time goes -/
def hotText (hot : List Json) : String :=
  let parts := hot.filterMap fun h =>
    match h with
    | .arr [p, .str label] => p.decimal.toOption.map fun d => label ++ " " ++ d.fixed 0 ++ "%"
    | _ => none
  if parts.isEmpty then "" else " (hot: " ++ " ".intercalate parts ++ ")"

/-- one row on the time that a benchmark spends in the measured code; a negative share means that it
failed -/
def timeRow (hot : Json) (e : String × Decimal) : String :=
  let failed := e.2.lt (.ofInt 0)
  let below := isBelow e.2
  (if below then "  * " else "    ") ++ Text.padRight 32 e.1 ++ " " ++
    Text.padLeft 5 ((if failed then Decimal.ofInt 0 else e.2).fixed 1) ++ "%" ++
    (if failed then "  <error>"
      else if below then hotText (Json.items (hot.field? e.1)) else "")

def timeTable (shares : List (String × Decimal)) (hot : Json) : RoundM Unit := do
  if shares.isEmpty then return
  line ""
  line "repo_time (target 50%; * = below 45%):"
  (shares.mergeSort fun a b => a.2.le b.2).forM fun e => line (timeRow hot e)

/-! ## self-checks -/

def legend : List String :=
  ["  returns-none: run() has no return — collect and return the call results",
    "  unstable: seed RNG in setup; avoid time/uuid/id in the return",
    "  returns-input: return repo output, not the parameter value",
    "  low-repo-time: <50% of run() time is in repo code — move glue to setup",
    "  param-invariant: return something derived from run()'s work, not setup",
    "  repo-modified: revert edits to repo files (git checkout -- <path>)"]

def checkRow (c : Check) : String :=
  (if c.verdict.isGood then "    " else "  * ") ++ Text.padRight 32 c.name ++ " " ++
    Text.padRight 16 c.verdict.word ++ " (" ++ c.type ++ ", repo " ++
    (c.share.mul (.ofInt 100)).fixed 0 ++ "%) " ++ c.time.fixed 1 ++ "ms"

def checkTable (cs : List Check) : RoundM Unit := do
  if cs.isEmpty then return
  line ""
  line "self-check (* = fix needed):"
  legend.forM line
  let (good, bad) := cs.partition (·.verdict.isGood)
  (bad ++ good).forM fun c => line (checkRow c)

/-! ## the record of rounds -/

/-- the rounds before the present one -/
structure Record where
  /-- number of rounds -/
  count : Nat := 0
  /-- what is known of the rounds up to the first line that is broken -/
  rounds : List Json := []
  deriving Inhabited

/-- a record with a broken line is not added to -/
def Record.isWhole (r : Record) : Bool := r.rounds.length == r.count

/-- what the lines of a record hold, up to the first that is no object -/
def readRounds : List String → List Json
  | [] => []
  | l :: ls =>
    match Json.read l with
    | .ok (.obj es) => .obj es :: readRounds ls
    | _ => []

def readRecord (text : String) : Record :=
  let lines := (Text.lines text).filter fun l => !(Text.trim l.toList).isEmpty
  { count := lines.length, rounds := readRounds lines }

def least : List Int → Option Int
  | [] => none
  | n :: ns => some (ns.foldl min n)

/-- how many rounds without improvement are enough -/
def patience : Nat := 3

/-- Why no further round is needed: nothing is left to improve, or the last rounds were no better
than those before them. -/
def settled? (belows : List Int) : Option String :=
  match belows.getLast? with
  | none => none
  | some 0 => some "0 below"
  | some _ =>
    let n := belows.length - patience
    match least (belows.take n), least (belows.drop n), least belows with
    | some before, some lately, some best =>
      if before ≤ lately then
        some ("no improvement in " ++ toString patience ++ " rounds; best " ++ Text.intText best ++
          " below")
      else none
    | _, _, _ => none

def belowOf (j : Json) : Option Int :=
  match j.field? "n_below_repo_time" with
  | some (.int n) => some n
  | some (.bool b) => some (if b then 1 else 0)
  | _ => none

/-- the number in a field; text is none -/
def decimalOf (j : Json) (key : String) : Option Decimal :=
  match j.field? key with
  | some (.str _) => none
  | some v => v.decimal.toOption
  | none => none

/-! ## a round -/

/-- number of lines that start a benchmark -/
def countBenches (text : String) : Nat :=
  ((Text.lines text).filter fun l => l.startsWith "def bench_").length

/-- the rest of a round after its coverage is known -/
def finish (record : Record) (g : Given) (c : Coverage) : RoundM Unit := do
  let repo ← findings "repotime" g.repoTime
  let shares ← (entriesOf repo "repo_time_pct").mapM fun (k, v) => do
    let d ← lift v.decimal
    pure (k, d)
  timeTable shares ((repo.field? "hot_ext").getD (.obj []))
  let found ← findings "semcheck" g.selfCheck
  let cs ← lift (checks (entriesOf found "semcheck"))
  checkTable cs
  let valid := shares.filter fun e => !e.2.lt (.ofInt 0)
  let below := (valid.filter fun e => isBelow e.2).length
  let bad := (cs.filter fun c => !c.verdict.isGood).length
  let number := record.count + 1
  let benches := match g.benchText with
    | some t => countBenches t
    | none => c.benches
  let wall := match record.rounds.getLast?.bind (decimalOf · "ts") with
    | some t => (g.now.sub t).round 2
    | none => .ofInt 0
  line ""
  line ("[round " ++ toString number ++ ": " ++ toString benches ++ " benches, " ++
    c.percent.fixed 1 ++ "% covered" ++
    (if shares.isEmpty then "" else ", " ++ toString below ++ "/" ++ toString valid.length ++
      " below repo_time 45%") ++
    (if cs.isEmpty then "" else ", " ++ toString bad ++ "/" ++ toString cs.length ++
      " not self-checking") ++
    ", measured in " ++ g.elapsed.fixed 1 ++ "s]")
  let entry : Json := .obj [
    ("round", .int number),
    ("ts", .num g.now),
    ("wall_since_prev_s", .num wall),
    ("coverage_pct", .num c.percent),
    ("covered_lines", c.covered),
    ("num_statements", c.statements),
    ("n_bench_fns", .int benches),
    ("n_bench_errors", .int c.errors),
    ("cov_measure_s", .num (g.elapsed.round 3)),
    ("repo_time_pct", .obj (shares.map fun e => (e.1, .num e.2))),
    ("n_below_repo_time", if valid.isEmpty then .null else .int below),
    ("semcheck", .obj (cs.map fun c => (c.name, .str c.verdict.word))),
    ("n_not_self_checking", .int bad)]
  if record.isWhole then modify fun r => { r with appended := entry.text ++ "\n" }
  let best := (record.rounds.filterMap (decimalOf · "coverage_pct")).all (·.le c.percent)
  if !valid.isEmpty && best then
    match settled? (record.rounds.filterMap belowOf ++ [(below : Int)]) with
    | some why =>
      line ""
      line (">>> STOP: repo_time converged (" ++ why ++ "). Finalize microbench.py now. <<<")
    | none => pure ()

/-- one round, given the record of those before it -/
def round (record : String) (g : Given) : RoundM Unit := do
  match g.coverage with
  | .refused text =>
    complain ("[coverage runner: RuntimeError: " ++ text ++ "]\n")
    modify fun r => { r with exit := some 1 }
  | .ran _ stderr code =>
    complain stderr
    match g.coverageText with
    | none => modify fun r => { r with exit := some (if code = 0 then 1 else code) }
    | some text =>
      let c ← readCoverage text
      finish (readRecord record) g c

end Pl0Kit.Measure
