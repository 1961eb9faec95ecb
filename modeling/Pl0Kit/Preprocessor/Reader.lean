import Pl0Kit.Lexer
import Pl0Kit.Scanner.Build

/-!
# Tokens for a preprocessor

A preprocessor works on the tokens of any reader.  `Reader.ofRules` has rules of its own, which keep
blanks and comments as tokens; `Reader.program` reads the tokens of PL/0, which drop them.
-/

namespace Pl0Kit

def Scanner.Tok.is (t : Scanner.Tok) (s : String) : Bool :=
  match t.value with
  | .str v => v == s
  | _ => false

namespace Preprocessor

open Scanner (Tok)

/-! ## rules -/

def kinds : List String :=
  ["CPP_ID", "CPP_INTEGER", "CPP_FLOAT", "CPP_STRING", "CPP_CHAR", "CPP_WS", "CPP_COMMENT",
    "CPP_POUND", "CPP_DPOUND"]

def singles : String := "+-*/%|&~^<>=!?()[]\x7b\x7d.,;:\\'\""

def functions : List Scanner.Function :=
  [{ name := "t_CPP_WS", doc := some "\\s+", line := 1, action := .keepLines },
    { name := "t_CPP_INTEGER", line := 2, action := .keep
      doc := some "(((((0x)|(0X))[0-9a-fA-F]+)|(\\d+))([uU]|[lL]|[uU][lL]|[lL][uU])?)" },
    { name := "t_CPP_STRING", line := 3, action := .keepLines
      doc := some "\\\"([^\\\\\\n]|(\\\\(.|\\n)))*?\\\"" },
    { name := "t_CPP_CHAR", line := 4, action := .keepLines
      doc := some "(L)?\\'([^\\\\\\n]|(\\\\(.|\\n)))*?\\'" },
    { name := "t_CPP_COMMENT", line := 5, action := .keepLines
      doc := some "(/\\*(.|\\n)*?\\*/)|(//.*?\\n)" },
    { name := "t_error", line := 6, action := .charKind }]

def patterns : List (String × String) :=
  [("t_CPP_FLOAT", "((\\d+)(\\.\\d+)(e(\\+|-)?(\\d+))? | (\\d+)e(\\+|-)?(\\d+))([lL]|[fF])?"),
    ("t_CPP_ID", "[A-Za-z_][\\w_]*"),
    ("t_CPP_DPOUND", "\\#\\#"),
    ("t_CPP_POUND", "\\#")]

def rules : Scanner.Spec :=
  (Scanner.Spec.ofList (
    ("tokens", .value (.list (kinds.map .str))) ::
    ("literals", .value (.str singles)) ::
    patterns.map (fun e => (e.1, .value (.str e.2))) ++
    functions.map (fun f => (f.name, .function f)))).sorted

/-! ## readers -/

inductive Reader where
  | scanner (s : Scanner)
  | program (l : Lexer)
  deriving Inhabited

namespace Reader

/-- the reader that keeps blanks and comments -/
def ofRules : Reader :=
  match (Scanner.buildScanner {} rules).run.run {} with
  | (.ok s, _) => .scanner s
  | (.error _, _) => .scanner {}

/-- a new text, read from its start; the line count goes on -/
def input (r : Reader) (text : String) : Reader :=
  match r with
  | scanner s => scanner (s.input text)
  | program l => program (l.input text)

def atLine (r : Reader) (n : Int) : Reader :=
  match r with
  | scanner s => scanner { s with line := n }
  | program l => program { l with line := n }

def bound (r : Reader) : Nat :=
  match r with
  | scanner s => (s.text.getD []).length + 2
  | program l => (l.source.getD []).length + 2

/-- the next token (none at the end of the text), what is printed, and the reader after it -/
def next (r : Reader) : Except Fault (Option Tok) × String × Reader :=
  match r with
  | scanner s =>
    match (Scanner.nextToken r.bound).run.run { scanner := s } with
    | (.ok t, w) => (.ok t, w.output, scanner w.scanner)
    | (.error (.other f), w) => (.error f, w.output, scanner w.scanner)
    | (.error _, w) => (.error .badValue, w.output, scanner w.scanner)
  | program l =>
    match l.read with
    | (.error f, l) => (.error f, "", program l)
    | (.ok g, l) =>
      (.ok (g.token.map fun t => ⟨t.kind.label, t.payload.toValue, t.line, t.pos⟩), g.report,
        program l)

end Reader

end Preprocessor

end Pl0Kit
