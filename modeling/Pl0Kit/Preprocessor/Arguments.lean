import Pl0Kit.Preprocessor.State

/-!
# Arguments in parentheses

Arguments are separated by commas outside of inner parentheses, and lose the blanks around them.  An
empty last argument does not count.
-/

namespace Pl0Kit.Preprocessor

open Scanner (Tok)

structure Arguments where
  /-- tokens from the start to the closing parenthesis -/
  count : Nat := 0
  args : List (List Tok) := []
  /-- where each argument starts, and where the last one ends -/
  places : List Nat := []
  deriving Inhabited

/-- arguments from token number `i` on, `nesting` parentheses being open; none if they are not
closed. What was gathered is kept in reverse. -/
def gather (k : Kinds) (i nesting : Nat) (arg : List Tok) (args : List (List Tok))
    (places : List Nat) : List Tok → Option Arguments
  | [] => none
  | t :: ts =>
    if t.is "(" then gather k (i + 1) (nesting + 1) (t :: arg) args places ts
    else if t.is ")" then
      if nesting ≤ 1 then
        if arg.isEmpty then some ⟨i + 1, args.reverse, places.reverse⟩
        else some ⟨i + 1, (k.strip arg.reverse :: args).reverse, (i :: places).reverse⟩
      else gather k (i + 1) (nesting - 1) (t :: arg) args places ts
    else if t.is "," && nesting == 1 then
      gather k (i + 1) nesting [] (k.strip arg.reverse :: args) ((i + 1) :: places) ts
    else gather k (i + 1) nesting (t :: arg) args places ts

def reportArguments (t : Option Tok) (text : String) : PreM Arguments := do
  let source ← sourceName
  match t with
  | none => throw .outOfRange
  | some t =>
    reportIn source t.line text
    pure {}

def collectArguments (ts : List Tok) : PreM Arguments := do
  let k := (← get).kinds
  let n := (ts.takeWhile k.isSpace).length
  match ts.drop n with
  | t :: rest =>
    if t.is "(" then
      match gather k (n + 1) 1 [] [] [n + 1] rest with
      | some a => pure a
      | none => reportArguments ts.getLast? "Missing ')' in macro arguments"
    else reportArguments ts.head? "Missing '(' in macro arguments"
  | [] => reportArguments ts.head? "Missing '(' in macro arguments"

end Pl0Kit.Preprocessor
