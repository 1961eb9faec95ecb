import Pl0Kit.Machine.Opcode
import Pl0Kit.Text.Lines

/-!
# Assembly

Each line is a comment, a label, or words.  A label names the place of the next word; a word is an
integer, the name of an instruction, or a label.  Labels are put in at the end, so they can be used
before they are given; a word that is no label stays as it is.
-/

namespace Pl0Kit.Machine

inductive AsmLine where
  | nothing
  | label (name : List Char)
  | words (ws : List (List Char))
  deriving DecidableEq, Inhabited, Repr

def isAsmComment (cs : List Char) : Bool := (Text.trimLeft cs).head? == some '#'

def AsmLine.ofChars (cs : List Char) : AsmLine :=
  if isAsmComment cs then .nothing
  else if (Text.trim cs).isEmpty then .nothing
  else if cs.contains ':' then .label ((Text.trimLeft cs).takeWhile (· != ':'))
  else .words (Text.wordsOf cs)

/-- the cell that a word stands for before labels are put in -/
def cellOf (w : List Char) : Value :=
  match Text.readInt? w with
  | some n => .int n
  | none =>
    match Opcode.ofName? (String.ofList w) with
    | some o => .int o.code
    | none => .str (String.ofList w)

/-- cells and labels of a text so far; a label given again moves -/
structure Assembly where
  cells : List Value := []
  labels : List (String × Nat) := []
  deriving Inhabited

namespace Assembly

def place? (a : Assembly) (name : String) : Option Nat :=
  (a.labels.find? fun l => l.1 == name).map Prod.snd

def addLine (a : Assembly) : AsmLine → Assembly
  | .nothing => a
  | .label name => { a with labels := (String.ofList name, a.cells.length) :: a.labels }
  | .words ws => { a with cells := a.cells ++ ws.map cellOf }

def resolve (a : Assembly) : Value → Value
  | .str s =>
    match a.place? s with
    | some n => .int n
    | none => .str s
  | v => v

def code (a : Assembly) : List Value := a.cells.map a.resolve

end Assembly

def assembleLines (ls : List (List Char)) : List Value :=
  ((ls.map AsmLine.ofChars).foldl Assembly.addLine {}).code

def assemble (s : String) : List Value := assembleLines (Text.newlineLines s.toList)

end Pl0Kit.Machine
