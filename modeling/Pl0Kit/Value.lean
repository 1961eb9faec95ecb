import Pl0Kit.Text.Quoted
import Pl0Kit.Text.Lines

/-!
# Values

The values that trees, tokens, frames and the machine's memory are made of: nothing, truth values,
integers of any size, texts, lists, tuples and tables, and three handles that only running programs
make (a procedure with its body, a token, a grammar symbol).

Lists and tuples are told apart, and a table keeps its keys in the order of their first insertion.
-/

namespace Pl0Kit

inductive Value where
  | none
  | bool (b : Bool)
  | int (n : Int)
  | str (s : String)
  | list (items : List Value)
  | tuple (items : List Value)
  | dict (entries : List (Value × Value))
  | procedure (name : Value) (body : Value)
  | token (kind : String) (value : Value) (line pos : Int)
  | symbol (kind : String)
  deriving Inhabited, Repr

namespace Value

/-- equality of values: a truth value equals the integer 0 or 1, and the order of a table's entries
does not count -/
def same : Value → Value → Bool
  | none, none => true
  | bool a, bool b => a == b
  | bool a, int n => n == (if a then 1 else 0)
  | int n, bool a => n == (if a then 1 else 0)
  | int a, int b => a == b
  | str a, str b => a == b
  | list xs, list ys => sameAll xs ys
  | tuple xs, tuple ys => sameAll xs ys
  | dict xs, dict ys => xs.length == ys.length && sameEntries xs ys
  | procedure n b, procedure m c => n.same m && b.same c
  | token k v l p, token k' v' l' p' => k == k' && v.same v' && l == l' && p == p'
  | symbol a, symbol b => a == b
  | _, _ => false
where
  sameAll : List Value → List Value → Bool
    | [], [] => true
    | x :: xs, y :: ys => x.same y && sameAll xs ys
    | _, _ => false
  sameEntries : List (Value × Value) → List (Value × Value) → Bool
    | [], _ => true
    | (k, v) :: xs, ys => ys.any (fun e => k.same e.1 && v.same e.2) && sameEntries xs ys

/-- whether a value can be the key of a table: lists and tables cannot, wherever they stand -/
def isKey : Value → Bool
  | list _ => false
  | dict _ => false
  | tuple xs => allKeys xs
  | _ => true
where
  allKeys : List Value → Bool
    | [] => true
    | v :: vs => v.isKey && allKeys vs

/-- nothing, zero, false and whatever is empty count as false -/
def truthy : Value → Bool
  | none => false
  | bool b => b
  | int n => n != 0
  | str s => !s.isEmpty
  | list xs => !xs.isEmpty
  | tuple xs => !xs.isEmpty
  | dict es => !es.isEmpty
  | _ => true

def isNode : Value → Bool
  | list _ => true
  | tuple _ => true
  | _ => false

/-- the text of a value inside another one: texts are quoted -/
def quoted : Value → String
  | none => "None"
  | bool true => "True"
  | bool false => "False"
  | int n => Text.intText n
  | str s => Text.quote s
  | list xs => "[" ++ ", ".intercalate (quotedAll xs) ++ "]"
  | tuple [x] => "(" ++ x.quoted ++ ",)"
  | tuple xs => "(" ++ ", ".intercalate (quotedAll xs) ++ ")"
  | dict es => "\x7b" ++ ", ".intercalate (quotedPairs es) ++ "\x7d"
  | procedure _ _ => "<Procedure>"
  | token k v l p =>
    "LexToken(" ++ k ++ "," ++ v.quoted ++ "," ++ Text.intText l ++ "," ++ Text.intText p ++ ")"
  | symbol k => k
where
  quotedAll : List Value → List String
    | [] => []
    | v :: vs => v.quoted :: quotedAll vs
  quotedPairs : List (Value × Value) → List String
    | [] => []
    | (k, v) :: es => (k.quoted ++ ": " ++ v.quoted) :: quotedPairs es

def text : Value → String
  | str s => s
  | v => v.quoted

end Value

end Pl0Kit
