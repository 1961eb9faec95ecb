import Pl0Kit.Text.Number

/-!
# Decimal numbers

Exact numbers with finitely many decimal places, and how they are rounded and written.  A number
half way between two neighbours is rounded to the even one.
-/

namespace Pl0Kit

/-- the number `digits / 10 ^ places` -/
structure Decimal where
  digits : Int
  places : Nat := 0
  deriving Inhabited, Repr

namespace Decimal

def ofInt (n : Int) : Decimal := ⟨n, 0⟩

def half : Decimal := ⟨5, 1⟩

def scaled (d : Decimal) (places : Nat) : Int := d.digits * Nat.pow 10 (places - d.places)

def aligned (a b : Decimal) : Int × Int × Nat :=
  let p := max a.places b.places
  (a.scaled p, b.scaled p, p)

def add (a b : Decimal) : Decimal :=
  let (x, y, p) := aligned a b
  ⟨x + y, p⟩

def sub (a b : Decimal) : Decimal :=
  let (x, y, p) := aligned a b
  ⟨x - y, p⟩

def mul (a b : Decimal) : Decimal := ⟨a.digits * b.digits, a.places + b.places⟩

def cmp (a b : Decimal) : Ordering :=
  let (x, y, _) := aligned a b
  compare x y

def lt (a b : Decimal) : Bool := a.cmp b == .lt

def le (a b : Decimal) : Bool := a.cmp b != .gt

/-- the quotient rounded to the nearest integer, a tie to the even one -/
def roundDiv (a : Int) (b : Nat) : Int :=
  let q := a.fdiv b
  let r := 2 * a.fmod b
  if r < b then q else if r > b then q + 1 else if q % 2 = 0 then q else q + 1

def round (d : Decimal) (places : Nat) : Decimal :=
  if d.places ≤ places then d else ⟨roundDiv d.digits (Nat.pow 10 (d.places - places)), places⟩

def pointed (digits : Int) (places : Nat) : String :=
  let ds := (toString digits.natAbs).toList
  let ds := List.replicate (places + 1 - ds.length) '0' ++ ds
  let n := ds.length - places
  (if digits < 0 then "-" else "") ++ String.ofList (ds.take n) ++
    (if places = 0 then "" else "." ++ String.ofList (ds.drop n))

def fixed (d : Decimal) (places : Nat) : String :=
  let r := d.round places
  pointed (r.scaled places) places

def trimmed : Nat → Int → Nat → Int × Nat
  | 0, digits, places => (digits, places)
  | n + 1, digits, places =>
    if 1 < places ∧ digits % 10 = 0 then trimmed n (digits / 10) (places - 1) else (digits, places)

/-- written with as few places as it needs, but one at least -/
def text (d : Decimal) : String :=
  let p := max d.places 1
  let (digits, places) := trimmed p (d.scaled p) p
  pointed digits places

def digitRun (cs : List Char) : List Char × List Char :=
  (cs.takeWhile Char.isDigit, cs.dropWhile Char.isDigit)

def natOf (ds : List Char) : Nat := ds.foldl (fun n c => 10 * n + (c.toNat - '0'.toNat)) 0

def shift (d : Decimal) (n : Int) : Decimal :=
  if 0 ≤ n then
    if n.toNat ≤ d.places then ⟨d.digits, d.places - n.toNat⟩
    else ⟨d.digits * Nat.pow 10 (n.toNat - d.places), 0⟩
  else ⟨d.digits, d.places + n.natAbs⟩

def exponent? : List Char → Option (Int × List Char)
  | c :: cs =>
    if c == 'e' || c == 'E' then
      let (neg, cs) := match cs with
        | '-' :: r => (true, r)
        | '+' :: r => (false, r)
        | r => (false, r)
      match digitRun cs with
      | ([], _) => none
      | (ds, rest) => some (if neg then -(natOf ds : Int) else natOf ds, rest)
    else none
  | [] => none

/-- a number at the head of a text, whether it is written as an integer, and the rest -/
def read? (cs : List Char) : Option (Decimal × Bool × List Char) :=
  let (neg, cs) := match cs with
    | '-' :: r => (true, r)
    | r => (false, r)
  match digitRun cs with
  | ([], _) => none
  | (ds, rest) =>
    let (frac, rest) := match rest with
      | '.' :: r =>
        match digitRun r with
        | ([], _) => ([], rest)
        | (fs, r) => (fs, r)
      | r => ([], r)
    let n : Int := natOf (ds ++ frac)
    let d : Decimal := ⟨if neg then -n else n, frac.length⟩
    match exponent? rest with
    | some (e, rest) => some (d.shift e, false, rest)
    | none => some (d, frac.isEmpty, rest)

end Decimal

end Pl0Kit
