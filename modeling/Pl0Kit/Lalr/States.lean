import Pl0Kit.Lalr.Item

/-!
# States

The states of the automaton over items: the closure of a kernel, and the states that each symbol
leads to.  Two kernels with the same items in the same order are one state.

A closure takes a rule in at most once.  Rules carry the number of the last closure that took them
in; the count starts at 1 for each automaton, while the marks stay with the grammar.
-/

namespace Pl0Kit.Lalr

structure LrState where
  kernel : List Item
  items : List Item
  /-- where each symbol leads -/
  edges : Ordered String Nat := []
  deriving Inhabited

structure Automaton where
  grammar : Grammar
  states : Array LrState := #[]
  /-- number of closures made -/
  closures : Nat := 0
  deriving Inhabited

/-- takes in the rules among `ps` that closure `count` does not have yet -/
def takeIn (count : Nat) (g : Grammar) : List Production → List Item × Grammar
  | [] => ([], g)
  | p :: ps =>
    if (g.production? p.number).any (·.mark == count) then takeIn count g ps
    else
      let r := takeIn count (g.modifyRule p.number fun q => { q with mark := count }) ps
      (Item.start p :: r.1, r.2)

/-- The items of a closure: those in the queue, and the rules that each of them calls for.  Every
rule enters the queue once, so `fuel` need not exceed their number and the kernel's. -/
def closeItems (count : Nat) : Nat → Grammar → List Item → List Item × Grammar
  | 0, g, queue => (queue, g)
  | _, g, [] => ([], g)
  | fuel + 1, g, i :: queue =>
    let new := takeIn count g (g.rulesAfter i)
    let r := closeItems count fuel new.2 (queue ++ new.1)
    (i :: r.1, r.2)

namespace Automaton

def addState (a : Automaton) (kernel : List Item) : Automaton :=
  let count := a.closures + 1
  let r := closeItems count (a.grammar.size + kernel.length + 1) a.grammar kernel
  { a with grammar := r.2, closures := count, states := a.states.push { kernel, items := r.1 } }

def kernelVia (items : List Item) (s : String) : List Item :=
  (items.filter fun i => i.after? == some s).map Item.advance

def find? (a : Automaton) (kernel : List Item) : Option Nat :=
  let keys := kernel.map Item.key
  a.states.findIdx? fun st => st.kernel.map Item.key == keys

def symbolsOf (items : List Item) : List String := distinct (items.flatMap (·.syms))

/-- follows one symbol out of state `n`, making the state it leads to if that is new -/
def connect (n : Nat) (items : List Item) (a : Automaton) (s : String) : Automaton :=
  match kernelVia items s with
  | [] => a
  | kernel =>
    let link (a : Automaton) (target : Nat) : Automaton :=
      { a with states := a.states.modify n fun st => { st with edges := st.edges.put s target } }
    match a.find? kernel with
    | some t => link a t
    | none => link (a.addState kernel) a.states.size

def explore : Nat → Nat → Automaton → Automaton
  | 0, _, a => a
  | fuel + 1, n, a =>
    match a.states[n]? with
    | none => a
    | some st => explore fuel (n + 1) ((symbolsOf st.items).foldl (connect n st.items) a)

def itemsOf (a : Automaton) (n : Nat) : List Item := (a.states[n]?.map LrState.items).getD []

def goto? (a : Automaton) (n : Nat) (s : String) : Option Nat :=
  a.states[n]?.bind fun st => st.edges.get? s

/-- a bound on the number of states: there are no more kernels than sequences of items -/
def bound (g : Grammar) : Nat :=
  let n := g.rules.foldl (fun n p => n + p.syms.length + 1) 3
  Nat.pow n n

def build (g : Grammar) (root : Production) : Automaton :=
  explore (bound g) 0 (({ grammar := g } : Automaton).addState [Item.start root])

end Automaton

end Pl0Kit.Lalr
