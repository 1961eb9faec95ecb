import Pl0Kit.Scanner.Run
import Pl0Kit.Text.Lines

/-!
# Saved scanners

The text form of a scanner, with the names of its functions in place of the functions.
-/

namespace Pl0Kit.Scanner

structure Saved where
  kinds : List Value
  flags : Int
  literals : Value
  /-- the states and whether each is `inclusive` or `exclusive` -/
  stateKinds : Ordered String String
  states : Ordered String (List Joined)
  ignore : Ordered String String
  onError : Ordered String (Option Function)
  deriving Inhabited

namespace Saved

def version : String := "3.4"

def optionValue : Option String → Value
  | some s => .str s
  | none => .none

def textTable (d : Ordered String String) : Value := .dict (d.map fun e => (.str e.1, .str e.2))

def targetValue : Option Target → Value
  | none => .none
  | some (.call rule _ kind) => .tuple [.str rule, .str kind]
  | some (.plain _ kind) => .tuple [.none, .str kind]
  | some (.ignored _) => .tuple [.none, .none]

def joinedValue (j : Joined) : Value := .tuple [.str j.text, .list (j.targets.map targetValue)]

def text (s : Saved) (name : String) : String :=
  "# " ++ name ++ ".py. This file automatically created by PLY (version " ++ version ++
    "). Don't edit!\n" ++
    "_tabversion   = " ++ Text.quote version ++ "\n" ++
    "_lextokens    = " ++ (Value.dict (s.kinds.map fun k => (k, .int 1))).text ++ "\n" ++
    "_lexreflags   = " ++ Text.intText s.flags ++ "\n" ++
    "_lexliterals  = " ++ s.literals.quoted ++ "\n" ++
    "_lexstateinfo = " ++ (textTable s.stateKinds).text ++ "\n" ++
    "_lexstatere   = " ++ (Value.dict (s.states.map fun e =>
      (.str e.1, .list (e.2.map joinedValue)))).text ++ "\n" ++
    "_lexstateignore = " ++ (textTable s.ignore).text ++ "\n" ++
    "_lexstateerrorf = " ++ (Value.dict (s.onError.map fun e =>
      (.str e.1, optionValue (e.2.map (·.name))))).text ++ "\n"

end Saved

inductive FileData where
  | text (s : String)
  | saved (name : String) (s : Saved)
  deriving Inhabited

abbrev Directory := Ordered String FileData

def FileData.shown : FileData → String
  | text s => s
  | saved name s => s.text name

end Pl0Kit.Scanner
