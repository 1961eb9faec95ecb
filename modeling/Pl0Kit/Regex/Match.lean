import Pl0Kit.Text.Chars
import Pl0Kit.Ordered

/-!
# Regular expressions

Expressions with ordered choice: of the ways to match, the first one in the order of preference
counts.  Alternatives are preferred from left to right, greedy repetitions prefer more turns and
lazy ones fewer.  A match also tells which numbered group was closed last.

The matcher passes on what has to match after a part, so that a part can be tried again in another
way when the rest does not match.
-/

namespace Pl0Kit.Regex

structure Flags where
  ignoreCase : Bool := false
  multiline : Bool := false
  dotAll : Bool := false
  deriving DecidableEq, Inhabited, Repr

inductive ClassItem where
  | char (c : Char)
  | range (lo hi : Char)
  | digit (negated : Bool)
  | space (negated : Bool)
  | word (negated : Bool)
  deriving DecidableEq, Inhabited, Repr

inductive Anchor where
  /-- start of the text, or of a line -/
  | start
  /-- end of the text or before a newline there, or end of a line -/
  | finish
  | textStart
  | textEnd
  | wordEdge
  | notWordEdge
  deriving DecidableEq, Inhabited, Repr

inductive Greed where
  | greedy | lazy
  deriving DecidableEq, Inhabited, Repr

inductive Node where
  | empty
  | any
  | char (c : Char)
  | oneOf (negated : Bool) (items : List ClassItem)
  | anchor (a : Anchor)
  | seq (a b : Node)
  | alt (a b : Node)
  | group (index : Nat) (a : Node)
  | loop (a : Node) (least : Nat) (most : Option Nat) (greed : Greed)
  /-- matches without being tried again in another way -/
  | atomic (a : Node)
  /-- matches without taking up text -/
  | ahead (negated : Bool) (a : Node)
  deriving Inhabited, Repr

/-- a place in a text -/
structure Place where
  pos : Nat
  before : Option Char
  rest : List Char
  /-- number of the group closed last, 0 for none -/
  last : Nat := 0
  deriving Inhabited, Repr

/-- the letters that count as the same as `c` when case is ignored -/
def variants (c : Char) : List Char :=
  let up := (Text.upperText (String.singleton c)).toList
  c :: c.toLower :: (if up.length == 1 then up else []) ++
    (if 0xC0 ≤ c.toNat ∧ c.toNat ≤ 0xDE ∧ c.toNat != 0xD7 then [Char.ofNat (c.toNat + 32)]
     else if 0x391 ≤ c.toNat ∧ c.toNat ≤ 0x3A9 then [Char.ofNat (c.toNat + 32)]
     else if 0x410 ≤ c.toNat ∧ c.toNat ≤ 0x42F then [Char.ofNat (c.toNat + 32)]
     else [])

def ClassItem.has (c : Char) : ClassItem → Bool
  | char d => c == d
  | range lo hi => lo ≤ c && c ≤ hi
  | digit n => Text.isDigit c != n
  | space n => Text.isBlank c != n
  | word n => Text.isWord c != n

def classHas (fl : Flags) (items : List ClassItem) (c : Char) : Bool :=
  if fl.ignoreCase then items.any fun i => (variants c).any (i.has ·)
  else items.any (ClassItem.has c)

def sameChar (fl : Flags) (c d : Char) : Bool :=
  c == d || (fl.ignoreCase && (variants c).any fun x => (variants d).contains x)

def wordAt (c : Option Char) : Bool := c.any Text.isWord

def Anchor.holds (fl : Flags) (p : Place) : Anchor → Bool
  | start => p.pos == 0 || (fl.multiline && p.before == some '\n')
  | finish => p.rest.isEmpty || p.rest == ['\n'] || (fl.multiline && p.rest.head? == some '\n')
  | textStart => p.pos == 0
  | textEnd => p.rest.isEmpty
  | wordEdge => wordAt p.before != wordAt p.rest.head?
  | notWordEdge => wordAt p.before == wordAt p.rest.head?

/-- what has to match after a part -/
abbrev Rest := Place → Option Place

/-- takes up one character that satisfies a test -/
def Place.take (p : Place) (test : Char → Bool) (k : Rest) : Option Place :=
  match p.rest with
  | c :: cs => if test c then k { p with pos := p.pos + 1, before := some c, rest := cs } else none
  | [] => none

/-- Repeats a part.  A turn after the least number that takes up nothing ends the loop, so `fuel`
need not exceed that number and the characters left. -/
def repeatPart (body : Place → Rest → Option Place) (greed : Greed) :
    Nat → Nat → Option Nat → Place → Rest → Option Place
  | 0, _, _, p, k => k p
  | fuel + 1, least, most, p, k =>
    if most == some 0 then k p
    else
      match least with
      | n + 1 => body p fun q => repeatPart body greed fuel n (most.map (· - 1)) q k
      | 0 =>
        let more (_ : Unit) : Option Place := body p fun q =>
          if q.pos == p.pos then none else repeatPart body greed fuel 0 (most.map (· - 1)) q k
        match greed with
        | .greedy =>
          match more () with
          | some r => some r
          | none => k p
        | .lazy =>
          match k p with
          | some r => some r
          | none => more ()

/-- matches a part at a place, and then the rest -/
def Node.run (fl : Flags) : Node → Place → Rest → Option Place
  | empty, p, k => k p
  | any, p, k => p.take (fun c => fl.dotAll || c != '\n') k
  | char d, p, k => p.take (sameChar fl d) k
  | oneOf negated items, p, k => p.take (fun c => classHas fl items c != negated) k
  | anchor a, p, k => if a.holds fl p then k p else none
  | seq a b, p, k => a.run fl p fun q => b.run fl q k
  | alt a b, p, k =>
    match a.run fl p k with
    | some r => some r
    | none => b.run fl p k
  | group i a, p, k => a.run fl p fun q => k { q with last := i }
  | loop a least most greed, p, k =>
    repeatPart (a.run fl) greed (least + p.rest.length + 1) least most p k
  | atomic a, p, k =>
    match a.run fl p some with
    | some q => k q
    | none => none
  | ahead negated a, p, k =>
    if (a.run fl p some).isSome != negated then k p else none

end Pl0Kit.Regex
