import Pl0Kit.Text.Number

/-!
# Templates

A text in which a percent sign starts a placeholder: flags, width, precision and size, and then the
letter of a conversion.  Two percent signs stand for one.  A width or precision of `*` is taken from
the arguments.  `fillTemplate` fills a template with no arguments at all, and `takesNumber` tells
whether it can be filled with one number.
-/

namespace Pl0Kit.Text

inductive TemplateFault where
  /-- a placeholder that wants an argument -/
  | noArgument
  /-- an argument that no placeholder takes -/
  | leftOver
  /-- the text ends inside a placeholder -/
  | incomplete
  | unknownConversion
  deriving DecidableEq, Inhabited, Repr

/-- how many arguments the width and the precision of a placeholder take, and what follows them -/
def measures (cs : List Char) : Nat × List Char :=
  let cs := cs.dropWhile fun c => c == '-' || c == '+' || c == ' ' || c == '#' || c == '0'
  let digits (cs : List Char) : Nat × List Char :=
    match cs with
    | '*' :: rest => (1, rest)
    | _ => (0, cs.dropWhile Char.isDigit)
  let (width, cs) := digits cs
  let (precision, cs) := match cs with
    | '.' :: rest => digits rest
    | _ => (0, cs)
  let cs := match cs with
    | 'h' :: rest => rest
    | 'l' :: rest => rest
    | 'L' :: rest => rest
    | _ => cs
  (width + precision, cs)

def conversions : List Char := "diouxXeEfFgGcrsa".toList

/-- fills a placeholder when `k` numbers are left; answers how many are left then -/
def fillPlaceholder (k : Nat) (cs : List Char) : Except TemplateFault (Nat × List Char) :=
  match cs with
  | '(' :: _ => .error .noArgument
  | _ =>
    let (taken, cs) := measures cs
    if k < taken then .error .noArgument
    else
      match cs with
      | [] => .error .incomplete
      | c :: rest =>
        if k = taken then .error .noArgument
        else if conversions.contains c then .ok (k - taken - 1, rest)
        else .error .unknownConversion

def fillFrom : Nat → List Char → Except TemplateFault (List Char)
  | 0, _ => .ok []
  | _, [] => .ok []
  | n + 1, '%' :: '%' :: cs => do return '%' :: (← fillFrom n cs)
  | n + 1, '%' :: cs => do
    let (_, rest) ← fillPlaceholder 0 cs
    fillFrom n rest
  | n + 1, c :: cs => do return c :: (← fillFrom n cs)

def fillTemplate (s : String) : Except TemplateFault String :=
  (fillFrom (s.length + 1) s.toList).map String.ofList

/-- how many of `k` numbers are left when a template is filled with them -/
def leftFrom : Nat → Nat → List Char → Except TemplateFault Nat
  | 0, k, _ => .ok k
  | _, k, [] => .ok k
  | n + 1, k, '%' :: '%' :: cs => leftFrom n k cs
  | n + 1, k, '%' :: cs => do
    let (k, rest) ← fillPlaceholder k cs
    leftFrom n k rest
  | n + 1, k, _ :: cs => leftFrom n k cs

def takesNumber (s : String) : Except TemplateFault Unit := do
  if (← leftFrom (s.length + 1) 1 s.toList) ≠ 0 then throw .leftOver

end Pl0Kit.Text
