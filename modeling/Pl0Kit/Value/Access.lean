import Pl0Kit.Fault
import Pl0Kit.Text.Template

/-!
# Items of values, and arithmetic on them

Lists, tuples and texts have items by place, tables by key.  Arithmetic is on integers, where truth
values count as 0 and 1; texts, lists and tuples can be joined and repeated.
-/

namespace Pl0Kit.Value

def entry? (key : Int) : List (Value × Value) → Option Value
  | [] => Option.none
  | (k, v) :: es => if k.same (.int key) then some v else entry? key es

def item (v : Value) (i : Nat) : Except Fault Value :=
  match v with
  | list xs | tuple xs =>
    match xs[i]? with
    | some x => .ok x
    | Option.none => .error .outOfRange
  | str t =>
    match t.toList[i]? with
    | some c => .ok (.str (String.singleton c))
    | Option.none => .error .outOfRange
  | dict es =>
    match entry? i es with
    | some x => .ok x
    | Option.none => .error (.missingKey (.int i))
  | _ => .error .wrongType

def toInt? : Value → Option Int
  | int n => some n
  | bool true => some 1
  | bool false => some 0
  | _ => Option.none

/-- `xs` repeated `n` times; not at all for negative `n` -/
def repeated {α : Type} (xs : List α) (n : Int) : List α := (List.replicate n.toNat xs).flatten

def add (a b : Value) : Except Fault Value :=
  match a.toInt?, b.toInt? with
  | some m, some n => .ok (.int (m + n))
  | _, _ =>
    match a, b with
    | str s, str t => .ok (.str (s ++ t))
    | list xs, list ys => .ok (.list (xs ++ ys))
    | tuple xs, tuple ys => .ok (.tuple (xs ++ ys))
    | _, _ => .error .wrongType

def sub (a b : Value) : Except Fault Value :=
  match a.toInt?, b.toInt? with
  | some m, some n => .ok (.int (m - n))
  | _, _ => .error .wrongType

def times (v : Value) (n : Int) : Except Fault Value :=
  match v with
  | str s => .ok (.str (String.ofList (repeated s.toList n)))
  | list xs => .ok (.list (repeated xs n))
  | tuple xs => .ok (.tuple (repeated xs n))
  | _ => .error .wrongType

def mul (a b : Value) : Except Fault Value :=
  match a.toInt?, b.toInt? with
  | some m, some n => .ok (.int (m * n))
  | Option.none, some n => times a n
  | some m, Option.none => times b m
  | Option.none, Option.none => .error .wrongType

def floorDiv (a b : Value) : Except Fault Value :=
  match a.toInt?, b.toInt? with
  | some m, some n => if n = 0 then .error .divisionByZero else .ok (.int (m.fdiv n))
  | _, _ => .error .wrongType

/-- whether a number is odd; the remainder of a text is the text as a template filled with the
divisor, which is not zero -/
def isOdd (v : Value) : Except Fault Bool :=
  match v with
  | str s =>
    match Text.takesNumber s with
    | .ok _ => .ok true
    | .error .noArgument | .error .leftOver => .error .wrongType
    | .error .incomplete | .error .unknownConversion => .error .badValue
  | _ =>
    match v.toInt? with
    | some n => .ok (n % 2 != 0)
    | Option.none => .error .wrongType

/-- order of values: numbers, texts, and lists or tuples item by item -/
def order : Value → Value → Except Fault Ordering
  | int m, int n => .ok (compare m n)
  | int m, bool b => .ok (compare m (if b then 1 else 0))
  | bool a, int n => .ok (compare (if a then 1 else 0) n)
  | bool a, bool b => .ok (compare (if a then 1 else 0 : Int) (if b then 1 else 0))
  | str s, str t => .ok (if s = t then .eq else if s < t then .lt else .gt)
  | list xs, list ys => orderAll xs ys
  | tuple xs, tuple ys => orderAll xs ys
  | _, _ => .error .wrongType
where
  orderAll : List Value → List Value → Except Fault Ordering
    | [], [] => .ok .eq
    | [], _ :: _ => .ok .lt
    | _ :: _, [] => .ok .gt
    | x :: xs, y :: ys => if x.same y then orderAll xs ys else order x y

end Pl0Kit.Value
