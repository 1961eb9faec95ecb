/-!
# Ordered tables

A table from keys to values that keeps its keys in the order of their first insertion.
-/

namespace Pl0Kit

abbrev Ordered (κ α : Type) := List (κ × α)

namespace Ordered

variable {κ α : Type} [BEq κ]

def get? (d : Ordered κ α) (k : κ) : Option α := List.lookup k d

def has (d : Ordered κ α) (k : κ) : Bool := (d.get? k).isSome

def keys (d : Ordered κ α) : List κ := List.map Prod.fst d

/-- sets the value of a key; a known key keeps its place -/
def put : Ordered κ α → κ → α → Ordered κ α
  | [], k, v => [(k, v)]
  | (k', v') :: d, k, v => if k == k' then (k', v) :: d else (k', v') :: put d k v

/-- changes the value of a key, from a default if the key is new -/
def alter (d : Ordered κ α) (k : κ) (dflt : α) (f : α → α) : Ordered κ α :=
  d.put k (f ((d.get? k).getD dflt))

def ensure (d : Ordered κ α) (k : κ) (v : α) : Ordered κ α := if d.has k then d else d.put k v

end Ordered

def addNew {α : Type} [BEq α] (xs : List α) (x : α) : List α :=
  if xs.contains x then xs else xs ++ [x]

def distinct {α : Type} [BEq α] (xs : List α) : List α := xs.foldl addNew []

end Pl0Kit
