import Pl0Kit.Fault
import Pl0Kit.Measure.Json

/-!
# Self-checks of benchmarks

A benchmark checks itself if what it returns depends on the work it does: the value is there, comes
out the same each time, differs between parameters, and is made mostly by the measured code.
-/

namespace Pl0Kit.Measure

/-- a number, which may be written as a truth value or as text -/
def Json.decimal : Json → Except Fault Decimal
  | .int n => .ok (.ofInt n)
  | .num d => .ok d
  | .bool b => .ok (.ofInt (if b then 1 else 0))
  | .str s =>
    match Decimal.read? (Text.trim s.toList) with
    | some (d, _, []) => .ok d
    | _ => .error .badValue
  | _ => .error .wrongType

def Json.values : Option Json → List Json
  | some (.obj es) => es.map Prod.snd
  | _ => []

def Json.items : Option Json → List Json
  | some (.arr xs) => xs
  | _ => []

def Json.numbers (j : Option Json) : Except Fault (List Decimal) := do
  let ds ← (Json.values j).mapM Json.decimal
  pure (ds.mergeSort Decimal.le)

/-- the middle one of numbers in order, or half way between the two in the middle -/
def median (ds : List Decimal) : Option Decimal :=
  let n := ds.length
  if n % 2 = 1 then ds[n / 2]?
  else
    match ds[n / 2 - 1]?, ds[n / 2]? with
    | some a, some b => some ((a.add b).mul .half)
    | _, _ => none

inductive Verdict where
  | ok
  | okUnparam
  | error
  | returnsNone
  | unstable
  | returnsInput
  | lowRepoTime
  | tooFast
  | paramInvariant
  deriving DecidableEq, Inhabited, Repr

def Verdict.word : Verdict → String
  | ok => "ok"
  | okUnparam => "ok-unparam"
  | error => "error"
  | returnsNone => "returns-none"
  | unstable => "unstable"
  | returnsInput => "returns-input"
  | lowRepoTime => "low-repo-time"
  | tooFast => "too-fast"
  | paramInvariant => "param-invariant"

def Verdict.isGood : Verdict → Bool
  | ok => true
  | okUnparam => true
  | _ => false

structure Check where
  name : String
  verdict : Verdict
  /-- type of the value returned -/
  type : String
  /-- least share of the measured code -/
  share : Decimal
  /-- typical time in milliseconds -/
  time : Decimal
  deriving Inhabited

def allSame (xs : List String) : Bool :=
  match xs with
  | [] => false
  | x :: xs => xs.all (· == x)

def check (name : String) (j : Json) : Except Fault Check := do
  let type := match j.field? "ret_type" with
    | some (.str s) => if s.isEmpty then "?" else s
    | _ => "?"
  let shares ← Json.numbers (j.field? "repo_frac")
  let times ← Json.numbers (j.field? "repo_tt_ms")
  let prints := (Json.items (j.field? "fp_stable")).map Json.text
  let byParam := (Json.values (j.field? "fp_by_param")).map Json.text
  let params := (Json.items (j.field? "param_fps")).map Json.text
  let verdict : Verdict :=
    if type == "?" || type.startsWith "<" then .error
    else if type == "NoneType" then .returnsNone
    else if !allSame prints then .unstable
    else if prints.head?.any params.contains then .returnsInput
    else if shares.head?.any (·.lt .half) then .lowRepoTime
    else if (median times).any (·.lt (.ofInt 1)) then .tooFast
    else if byParam.length < 2 then .okUnparam
    else if allSame byParam then .paramInvariant
    else .ok
  pure
    { name, verdict, type, share := shares.head?.getD (.ofInt 0),
      time := (median times).getD (.ofInt 0) }

/-- judges all benchmarks; what is no object is passed over -/
def checks : List (String × Json) → Except Fault (List Check)
  | [] => .ok []
  | (name, .obj es) :: rest => do
    let c ← check name (.obj es)
    let cs ← checks rest
    pure (c :: cs)
  | _ :: rest => checks rest

end Pl0Kit.Measure
