import Pl0Kit.Site

/-!
# Frames

A frame holds the constants, variables and procedures of one block, each table in the order in
which its names came in.  Names are looked up from the innermost frame outwards, and within a frame
among constants first, then variables, then procedures.
-/

namespace Pl0Kit

abbrev Table := List (Value × Value)

namespace Table

def get? (t : Table) (k : Value) : Option Value := (t.find? fun e => e.1.same k).map Prod.snd

/-- sets the value of a key; a known key keeps its place -/
def put : Table → Value → Value → Table
  | [], k, v => [(k, v)]
  | (k', v') :: t, k, v => if k'.same k then (k', v) :: t else (k', v') :: put t k v

end Table

inductive EntryKind where
  | const | var | proc
  deriving DecidableEq, Inhabited, Repr

def EntryKind.word : EntryKind → String
  | const => "CONSTANT"
  | var => "VARIABLE"
  | proc => "PROCEDURE"

structure Frame where
  consts : Table := []
  vars : Table := []
  procs : Table := []
  deriving Inhabited, Repr

namespace Frame

def define (f : Frame) (k v : Value) : Frame := { f with consts := f.consts.put k v }
def update (f : Frame) (k v : Value) : Frame := { f with vars := f.vars.put k v }
def declare (f : Frame) (k v : Value) : Frame := { f with procs := f.procs.put k v }

def lookup (f : Frame) (k : Value) : Option (EntryKind × Value) :=
  match f.consts.get? k with
  | some v => some (.const, v)
  | none =>
    match f.vars.get? k with
    | some v => some (.var, v)
    | none =>
      match f.procs.get? k with
      | some v => some (.proc, v)
      | none => none

/-- the listing of a frame -/
def debug (f : Frame) : String :=
  "-- Stack Frame --\n" ++
    "Constants: " ++ (Value.dict f.consts).text ++ "\n" ++
    "Variables: " ++ (Value.dict f.vars).text ++ "\n" ++
    "Procedures: " ++ (Value.dict f.procs).text ++ "\n"

end Frame

/-- frames with the innermost one first -/
abbrev Frames := List Frame

namespace Frames

/-- where a name is found: its kind, its value, and how many frames from the innermost on were
looked at -/
def find? (k : Value) : Frames → Option (EntryKind × Value × Nat)
  | [] => none
  | f :: fs =>
    match f.lookup k with
    | some (kind, v) => some (kind, v, 1)
    | none => (find? k fs).map fun (kind, v, n) => (kind, v, n + 1)

/-- `find?`, with a fault for unknown names and for values that cannot be names -/
def find (fs : Frames) (k : Value) : Except Fault (EntryKind × Value × Nat) :=
  if !k.isKey && !fs.isEmpty then .error .wrongType
  else
    match fs.find? k with
    | some r => .ok r
    | none => .error (.undefinedName k)

def push (fs : Frames) : Frames := {} :: fs

/-- changes the innermost frame -/
def modifyTop (fs : Frames) (g : Frame → Frame) : Frames :=
  match fs with
  | [] => []
  | f :: rest => g f :: rest

/-- place in the list of frame number `i`, where numbers from 0 on count from the outermost frame
and negative ones from the innermost -/
def place? (fs : Frames) (i : Int) : Option Nat :=
  let n : Int := fs.length
  let j := if i < 0 then i + n else i
  if 0 ≤ j ∧ j < n then some (n - 1 - j).toNat else none

end Frames

inductive FramesRequest where
  | push
  | pop
  | find (name : Value)
  | visit (v : Value)
  | define (i : Int) (name value : Value)
  | update (i : Int) (name value : Value)
  | declare (i : Int) (name value : Value)
  | lookup (i : Int) (name : Value)
  | debug (i : Int)
  deriving Inhabited

inductive FramesAnswer where
  | value (v : Value)
  | frame (f : Frame)
  deriving Inhabited

namespace Frames

def change (fs : Frames) (i : Int) (name : Value) (g : Frame → Frame) :
    Except Fault FramesAnswer × Frames :=
  match fs.place? i with
  | none => (.error .outOfRange, fs)
  | some p =>
    if name.isKey then (.ok (.value .none), fs.modify p g) else (.error .wrongType, fs)

/-- the outcome of a request, what it prints, and the frames after it -/
def run (fs : Frames) : FramesRequest → Except Fault FramesAnswer × String × Frames
  | .push => (.ok (.value .none), "", fs.push)
  | .pop =>
    match fs with
    | [] => (.error .outOfRange, "", fs)
    | f :: rest => (.ok (.frame f), "", rest)
  | .find name =>
    match fs.find name with
    | .ok (kind, v, n) => (.ok (.value (.tuple [.str kind.word, v, .int (-(n : Int))])), "", fs)
    | .error e => (.error e, "", fs)
  | .visit v =>
    let visitItems : Act Unit Value := do visitAll (← (Rules.plain.spot v).items)
    match (visitItems.run.run ()).1 with
    | .ok r => (.ok (.value r), "", fs)
    | .error e => (.error e, "", fs)
  | .define i name v => let r := fs.change i name (·.define name v); (r.1, "", r.2)
  | .update i name v => let r := fs.change i name (·.update name v); (r.1, "", r.2)
  | .declare i name v => let r := fs.change i name (·.declare name v); (r.1, "", r.2)
  | .lookup i name =>
    match fs.place? i with
    | none => (.error .outOfRange, "", fs)
    | some p =>
      if !name.isKey then (.error .wrongType, "", fs)
      else
        let r := match (fs[p]?.getD {}).lookup name with
          | some (kind, v) => Value.tuple [.str kind.word, v]
          | none => Value.tuple [.bool false, .none]
        (.ok (.value r), "", fs)
  | .debug i =>
    match fs.place? i with
    | none => (.error .outOfRange, "", fs)
    | some p => (.ok (.value .none), (fs[p]?.getD {}).debug, fs)

end Frames

end Pl0Kit
