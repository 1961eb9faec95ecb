import Pl0Kit.Lalr.States

/-!
# Lookaheads

The symbols that may follow a complete item in a state.  They come from two relations between the
moves of the automaton over nonterminals: what can be read right after a move, and which moves end
inside others.  Both are closed by one walk that finds the cycles of a relation and gives their
members one common set.

Sets live in numbered cells: moves on a cycle share a cell, and the second walk grows the cells that
the first one made.
-/

namespace Pl0Kit.Lalr

/-- a move out of a state over a nonterminal -/
abbrev Move := Nat × String

namespace Automaton

def nullableRounds (rules : List Production) : Nat → List String → List String
  | 0, known => known
  | n + 1, known =>
    nullableRounds rules n (rules.foldl (fun known p =>
      if p.syms.all known.contains then addNew known p.name else known) known)

def nullable (g : Grammar) : List String := nullableRounds g.rules (g.rules.length + 1) []

def moves (a : Automaton) : List Move :=
  (List.range a.states.size).flatMap fun n =>
    distinct (((a.itemsOf n).filterMap Item.after?).filter a.grammar.isNonterminal |>.map (n, ·))

def itemsAfter (a : Automaton) (m : Move) : List Item :=
  match a.goto? m.1 m.2 with
  | some n => a.itemsOf n
  | none => []

def directReads (a : Automaton) (m : Move) : List String :=
  let terms := distinct (((a.itemsAfter m).filterMap Item.after?).filter a.grammar.isTerminal)
  let start := a.grammar.root.bind fun p => p.syms.head?
  if m.1 == 0 && start == some m.2 then terms ++ [endSymbol] else terms

/-- the moves over empty nonterminals that can come directly after a move -/
def reads (a : Automaton) (empty : List String) (m : Move) : List Move :=
  match a.goto? m.1 m.2 with
  | none => []
  | some n => (((a.itemsOf n).filterMap Item.after?).filter empty.contains).map (n, ·)

end Automaton

/-! ## closing a relation -/

structure Walk where
  /-- 0 for a move not met, its depth on the stack while it is open, then `finished` -/
  depth : Ordered Move Nat := []
  /-- open moves, the last one first -/
  stack : List Move := []
  cellOf : Ordered Move Nat := []
  cells : Array (List String) := #[]
  deriving Inhabited

namespace Walk

def depthOf (w : Walk) (m : Move) : Nat := (w.depth.get? m).getD 0

def members (w : Walk) (m : Move) : List String :=
  match w.cellOf.get? m with
  | some c => (w.cells[c]?).getD []
  | none => []

def absorb (w : Walk) (x y : Move) : Walk :=
  match w.cellOf.get? x with
  | some c => { w with cells := w.cells.modify c ((w.members y).foldl addNew ·) }
  | none => w

/-- closes the moves on the stack down to `x`, with the cell of `x` for all of them -/
def closeDown (finished : Nat) (x : Move) (c : Nat) : List Move → Walk → Walk
  | [], w => w
  | m :: rest, w =>
    let w := { w with depth := w.depth.put m finished, cellOf := w.cellOf.put m c, stack := rest }
    if m == x then w else closeDown finished x c rest w

/-- Visits a move and all that it is related to.  `cell` gives a move its own cell.  The visits
nest no deeper than there are moves. -/
def visit (finished : Nat) (related : Move → List Move) (cell : Move → Walk → Nat × Walk) :
    Nat → Move → Walk → Walk
  | 0, _, w => w
  | fuel + 1, x, w =>
    let d := w.stack.length + 1
    let w := { w with stack := x :: w.stack, depth := w.depth.put x d }
    let (c, w) := cell x w
    let w := { w with cellOf := w.cellOf.put x c }
    let w := (related x).foldl (fun w y =>
      let w := if w.depthOf y == 0 then visit finished related cell fuel y w else w
      let w := { w with depth := w.depth.put x (min (w.depthOf x) (w.depthOf y)) }
      w.absorb x y) w
    if w.depthOf x == d then closeDown finished x c w.stack w else w

def visitAll (moves : List Move) (related : Move → List Move) (cell : Move → Walk → Nat × Walk)
    (cells : Array (List String)) : Walk :=
  moves.foldl (fun w x =>
    if w.depthOf x == 0 then visit (moves.length + 1) related cell (moves.length + 1) x w else w)
    { cells }

def newCell (members : List String) (w : Walk) : Nat × Walk :=
  (w.cells.size, { w with cells := w.cells.push members })

end Walk

/-! ## lookback and inclusion -/

/-- how an item's move relates to the moves and the complete items further on -/
structure Trail where
  /-- moves that end inside the item -/
  inner : List Move := []
  /-- the state at the end of the item -/
  last : Nat

namespace Automaton

def trail (a : Automaton) (empty : List String) (isMove : Move → Bool) :
    List String → Nat → Trail
  | [], n => { last := n }
  | s :: rest, n =>
    let ends := rest.all fun t => !a.grammar.isTerminal t && empty.contains t
    let r := a.trail empty isMove rest ((a.goto? n s).getD (a.states.size - 1))
    if isMove (n, s) && ends then { r with inner := (n, s) :: r.inner } else r

/-- whether `r` begins with what `p` has after its first place, up to the dot of `r` -/
def matchesFrom (p r : Item) : Bool :=
  r.name == p.name && r.syms.length == p.syms.length &&
    (r.marked.take r.index) == ((p.marked.drop 1).take r.index)

/-- the items that a move over `m.2` looks back to, with their state, and the moves inside it -/
def lookback (a : Automaton) (empty : List String) (isMove : Move → Bool) (m : Move) :
    List (Nat × Item) × List Move :=
  let trails := ((a.itemsOf m.1).filter (·.name == m.2)).map fun p =>
    (p, a.trail empty isMove (p.syms.drop p.index) m.1)
  (trails.flatMap fun (p, t) =>
      ((a.itemsOf t.last).filter (matchesFrom p)).map (t.last, ·),
    trails.flatMap fun (_, t) => t.inner)

/-- the symbols after each complete item, by state and item -/
abbrev Lookaheads := Ordered (Nat × Nat × Nat) (List String)

def lookaheads (a : Automaton) : Lookaheads :=
  let empty := nullable a.grammar
  let ms := a.moves
  let isMove (m : Move) : Bool := ms.contains m
  let readSets := Walk.visitAll ms (a.reads empty) (fun m w => w.newCell (a.directReads m)) #[]
  let backs := ms.map fun m => (m, a.lookback empty isMove m)
  let includes : Ordered Move (List Move) := backs.foldl (fun d (m, _, inner) =>
    inner.foldl (fun d i => Ordered.alter d i [] (· ++ [m])) d) []
  let followSets := Walk.visitAll ms (fun m => (includes.get? m).getD [])
    (fun m w => ((readSets.cellOf.get? m).getD 0, w)) readSets.cells
  backs.foldl (fun d (m, items, _) =>
    items.foldl (fun d (n, r) =>
      Ordered.alter d (n, r.key) [] ((followSets.members m).foldl addNew ·)) d) []

end Automaton

end Pl0Kit.Lalr
