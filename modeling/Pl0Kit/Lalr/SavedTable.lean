import Pl0Kit.Lalr.Table

/-!
# Saved tables

Tables with a fingerprint of the specification they were made from, so that a later build can take
them over.  A text file lists the entries by symbol, so that a state without entries is lost in it;
a binary file keeps all states.
-/

namespace Pl0Kit.Lalr

/-- what a saved table keeps of a production; function and place only where there is a function -/
structure SavedRule where
  text : String
  name : String
  length : Nat
  source : Option (String × Place) := none
  deriving Inhabited, Repr

def SavedRule.ofProduction (p : Production) : SavedRule :=
  { text := p.text, name := p.name, length := p.syms.length, source := p.func.map (·, p.place) }

structure SavedTable where
  method : Method
  fingerprint : String
  actions : Ordered Nat ActionRow
  gotos : Ordered Nat GotoRow
  rules : List SavedRule
  deriving Inhabited

namespace SavedTable

def bySymbol {α : Type} (rows : Ordered Nat (Ordered String α)) : Ordered String (List (Nat × α)) :=
  rows.foldl (fun d (n, row) =>
    row.foldl (fun d (s, x) => Ordered.alter d s [] (· ++ [(n, x)])) d) []

def byState {α : Type} (items : Ordered String (List (Nat × α))) : Ordered Nat (Ordered String α) :=
  let rows : Ordered Nat (Ordered String α) := items.foldl (fun d (s, xs) =>
    xs.foldl (fun d (n, x) => Ordered.alter d n [] (Ordered.put · s x)) d) []
  rows.mergeSort fun a b => a.1 ≤ b.1

/-- what is left of a table after it was written as text and read again -/
def throughText (t : SavedTable) : SavedTable :=
  { t with actions := byState (bySymbol t.actions), gotos := byState (bySymbol t.gotos) }

def listing {α : Type} (word : α → String) (items : Ordered String (List (Nat × α))) : String :=
  String.join (items.map fun (s, xs) =>
    Text.quote s ++ ":([" ++ String.join (xs.map fun e => toString e.1 ++ ",") ++ "],[" ++
      String.join (xs.map fun e => word e.2 ++ ",") ++ "]),")

def actionWord : Option Action → String
  | some a => Text.intText a.code
  | none => "None"

def ruleLine (r : SavedRule) : String :=
  "  (" ++ Text.quote r.text ++ "," ++ Text.quote r.name ++ "," ++ toString r.length ++ "," ++
    (match r.source with
      | some (f, p) => Text.quote f ++ "," ++ Text.quote p.file ++ "," ++ Text.intText p.line
      | none => "None,None,None") ++ "),\n"

def version : String := "3.2"

/-- the text of a table file; `file` is its name, and `mark` stands for the fingerprint -/
def text (t : SavedTable) (file mark : String) : String :=
  "\n# " ++ file ++ "\n# This file is automatically generated. Do not edit.\n_tabversion = " ++
    Text.quote version ++ "\n\n_lr_method = " ++ Text.quote t.method.word ++
    "\n\n_lr_signature = " ++ mark ++ "\n    " ++
    "\n_lr_action_items = \x7b" ++ listing actionWord (bySymbol t.actions) ++ "\x7d\n" ++
    "\n_lr_action = \x7b \x7d\n" ++
    "for _k, _v in _lr_action_items.items():\n" ++
    "   for _x,_y in zip(_v[0],_v[1]):\n" ++
    "      if not _x in _lr_action:  _lr_action[_x] = \x7b \x7d\n" ++
    "      _lr_action[_x][_k] = _y\n" ++
    "del _lr_action_items\n" ++
    "\n_lr_goto_items = \x7b" ++ listing toString (bySymbol t.gotos) ++ "\x7d\n" ++
    "\n_lr_goto = \x7b \x7d\n" ++
    "for _k, _v in _lr_goto_items.items():\n" ++
    "   for _x,_y in zip(_v[0],_v[1]):\n" ++
    "       if not _x in _lr_goto: _lr_goto[_x] = \x7b \x7d\n" ++
    "       _lr_goto[_x][_k] = _y\n" ++
    "del _lr_goto_items\n" ++
    "_lr_productions = [\n" ++ String.join (t.rules.map ruleLine) ++ "]\n"

end SavedTable

inductive FileData where
  | text (s : String)
  /-- a table written as text under a file name -/
  | table (file : String) (t : SavedTable)
  /-- a table kept as it is -/
  | binary (t : SavedTable)
  /-- a table file of an old version, as text or not -/
  | outdated (binary : Bool)
  deriving Inhabited

abbrev Directory := Ordered String FileData

/-- the text of a file; `mark` stands for fingerprints -/
def FileData.shown (mark : String) : FileData → String
  | text s => s
  | table file t => t.text file mark
  | binary _ => ""
  | outdated _ => "_tabversion = '0.0'\n"

inductive Loaded where
  | nothing
  | outdated
  | table (t : SavedTable)

def Directory.loadText (d : Directory) (moduleName : String) : Loaded :=
  match Ordered.get? d (moduleName ++ ".py") with
  | some (.table _ t) => .table t.throughText
  | some (.outdated false) => .outdated
  | _ => .nothing

def Directory.loadBinary (d : Directory) (file : String) : Loaded :=
  match Ordered.get? d file with
  | some (.binary t) => .table t
  | some (.outdated true) => .outdated
  | _ => .nothing

end Pl0Kit.Lalr
