import Pl0Kit.Replay
import Pl0Kit.Outline
import Pl0Kit.Frame
import Pl0Kit.Generator.Targets
import Pl0Kit.Generator.Walk

/-!
# Sample workloads

Programs to try the tools on, and faulty ones to try the messages on.  Each workload has a size, and
goes through its samples again and again until it has used that many.
-/

namespace Pl0Kit.Samples

def programs : List String :=
  ["CONST K = 20, A = 1, B = 2;
VAR m, n, k, count;
PROCEDURE show;
BEGIN
  ! k
END;
BEGIN
  m := 1;
  n := 1;
  k := 1;
  count := 0;
  WHILE count <= K DO
  BEGIN
    CALL show;
    k := n;
    n := m + n;
    m := k;
    count := count + 1
  END
END.
",
    "CONST C = 7;
VAR a, b, c, d;
PROCEDURE inner;
  VAR t;
BEGIN
  t := -a * (b + C) - d / 2;
  IF t >= 0 THEN ! t;
  IF t < 100 THEN d := d + 1;
  IF ODD t THEN c := c + 1;
  IF a != b THEN b := b - 1;
  IF a == b THEN b := b + 1;
  IF a > b THEN a := a - 1
END;
BEGIN
  a := +1;
  b := 2 * 3 + 4 - 5;
  c := (a + b) * (a - b);
  d := C;
  WHILE a <= 5 DO
  BEGIN
    CALL inner;
    a := a + 1
  END;
  ! -c;
  ! d
END.
",
    "BEGIN
  IF ODD -5 THEN ! -5;
  IF ODD 4 THEN ! 4;
  IF ODD +3 THEN ! 3
END.
"]

def faulty : List String :=
  ["BEGIN ! 1 + . END.",
    "BEGIN IF x THEN ! 1 END.",
    "PROCEDURE p",
    "VAR x 5;",
    "BEGIN x := ( ) END.",
    "BEGIN ! ; END.",
    "VAR ;",
    "  .",
    "."]

/-- the first `n` elements of a list repeated without end -/
def cycle {α : Type} (xs : List α) (n : Nat) : List α :=
  (List.range n).filterMap fun i => xs[i % xs.length]?

def label : String := "<bench>"

def parse (source : String) : Except Fault Program := (parseTokens label (tokensOf source)).1

/-! ## workloads -/

def trees (n : Nat) : Except Fault (List Value) :=
  (cycle programs n).mapM fun s => (parse s).map Program.toValue

def messages (n : Nat) : List String :=
  (cycle faulty n).filterMap fun s =>
    match parse s with
    | .ok _ => none
    | .error f => f.message

/-- trees that no program has: a table with composite keys, and a set, which counts as a leaf -/
def oddTrees : List Value :=
  [.dict [(.tuple [.str "k1", .str "k2"], .tuple [.str "a", .str "b"]),
      (.tuple [.str "k3"], .str "str")],
    .str "frozenset(\x7b(1, 2)\x7d)"]

def outlines (n : Nat) : Except Fault String := do
  let ts ← trees n
  let (r, text) := ((ts ++ oddTrees).forM (Outline.print 0)).run.run ""
  match r with
  | .ok _ => pure text
  | .error f => throw f

/-- `n` nested frames, each with a constant, a variable and a procedure -/
def frames : Nat → Frames
  | 0 => []
  | i + 1 =>
    let name (s : String) : Value := .str (s ++ toString i)
    Frames.modifyTop (Frames.push (frames i)) fun f =>
      ((f.define (name "c") (.int (2 * i))).update (name "v") (.int i)).declare (name "p")
        (name "proc")

def lookups (n : Nat) : Except Fault Value := do
  let fs := frames n
  let found ← (List.range n).mapM fun i =>
    ["v", "c", "p"].mapM fun s => do
      let (kind, v, depth) ← Frames.find fs (.str (s ++ toString i))
      pure (Value.tuple [.str kind.word, v, .int (-(depth : Int))])
  match fs.getLast? with
  | none => throw .outOfRange
  | some f => pure (.tuple [.list found.flatten, .str f.debug])

/-! ## code for parts of programs -/

/-- A division, an assignment to a constant, a call of a variable, and the value of a procedure. -/
def parts : List Value :=
  [.list [.str "TERM", .tuple [.str "NUMBER", .int 8],
      .tuple [.str "DIVIDES", .tuple [.str "NUMBER", .int 2]]],
    .tuple [.str "SET", .tuple [.str "NAME", .str "k"],
      .list [.str "EXPRESSION", .none, .list [.str "TERM", .tuple [.str "NUMBER", .int 1]]]],
    .tuple [.str "CALL", .str "x"],
    .tuple [.str "NAME", .str "p"]]

def partsFrame (f : Frame) : Frame :=
  ((f.update (.str "x") (.str "x")).define (.str "k") (.int 1)).declare (.str "p") (.str "p")

/-- A name that is unknown or of the wrong kind ends the code of its part only. -/
def partCode (T : Generator.Target) (v : Value) : Generator.GenM Unit :=
  tryCatch (discard ((Generator.rules T).run v)) fun
    | .undefinedName _ | .wrongKind _ | .missingKey _ => pure ()
    | f => throw f

def partsCode (T : Generator.Target) : Except Fault String :=
  let walk : Generator.GenM Unit := do
    Generator.openFrame
    Generator.modifyTop partsFrame
    parts.forM (partCode T)
  match walk.run.run {} with
  | (.ok _, g) => .ok (Generator.render T g.events)
  | (.error f, _) => .error f

def translations (T : Generator.Target) (n : Nat) : Except Fault String := do
  let ts ← trees n
  let codes ← ts.mapM fun t =>
    match Generator.translate T t {} with
    | (.ok _, text, _) => .ok text
    | (.error f, _, _) => .error f
  pure (String.join codes ++ (← partsCode T))

end Pl0Kit.Samples
