import Pl0Kit.Proofs.Semantics
import Pl0Kit.Text.Lines

/-!
# A Forth machine

What the words of a Forth text do: integers, cells, arithmetic, comparisons, `if … then` and
`begin … while … repeat`.  A word is looked up in the dictionary first: the name of a variable puts
its address on the stack, whatever the word meant before.  `define?` reads the words of a definition
and closes the control structures from left to right, with the open ones on a stack.  `interpret`
runs a text of variables and one definition.

* `compile_flatten`     what is compiled from the words of some items are these items;
* `Reads dict ws is`    the text `ws` reads as the words `is`;
* `Performs is s t`     the items `is` lead from `s` to `t`.
-/

namespace Pl0Kit.Forth

/-! ## words and items -/

/-- words that act on stack and cells -/
inductive Prim where
  | lit (n : Int)
  | fetch | store
  | add | sub | mul | mod
  | rel (op : RelOp)
  | print
  deriving DecidableEq, Repr

inductive Word where
  | prim (p : Prim)
  | ifMark | thenMark | beginMark | whileMark | repeatMark
  deriving DecidableEq, Repr

/-- compiled words -/
inductive Item where
  | prim (p : Prim)
  | branch (body : List Item)
  | loop (test body : List Item)

/-- digits that make up a number -/
def natural? (cs : List Char) : Option Nat :=
  if cs ≠ [] ∧ cs.all Char.isDigit then some (Nat.ofDigitChars 10 cs 0) else none

/-- an integer, with a minus sign if it is negative -/
def literal? (w : String) : Option Int :=
  match w.toList with
  | '-' :: cs => (natural? cs).map fun n : Nat => -(n : Int)
  | cs => (natural? cs).map Nat.cast

def vocabulary : List (String × Word) :=
  [("@", .prim .fetch), ("!", .prim .store), ("+", .prim .add), ("-", .prim .sub),
    ("*", .prim .mul), ("mod", .prim .mod), ("<", .prim (.rel .lt)), ("<=", .prim (.rel .lte)),
    (">", .prim (.rel .gt)), (">=", .prim (.rel .gte)), ("=", .prim (.rel .e)),
    ("<>", .prim (.rel .ne)), (".", .prim .print), ("if", .ifMark), ("then", .thenMark),
    ("begin", .beginMark), ("while", .whileMark), ("repeat", .repeatMark)]

/-- what a word means that is no name of a variable -/
def Word.standard? (w : String) : Option Word :=
  match literal? w with
  | some n => some (.prim (.lit n))
  | none => vocabulary.lookup w

/-- the addresses of variables by their names -/
abbrev Dictionary := String → Option Nat

def Word.ofText? (dict : Dictionary) (w : String) : Option Word :=
  match dict w with
  | some a => some (.prim (.lit a))
  | none => Word.standard? w

/-- a control structure that is not closed yet -/
inductive Open where
  | branch
  | test
  | body (test : List Item)

/-- compiles words after the items `done`; each open structure is kept with the items before it -/
def compile : List Word → List Item → List (List Item × Open) → Option (List Item)
  | [], done, [] => some done
  | .prim p :: ws, done, opens => compile ws (done ++ [.prim p]) opens
  | .ifMark :: ws, done, opens => compile ws [] ((done, .branch) :: opens)
  | .thenMark :: ws, done, (before, .branch) :: opens =>
    compile ws (before ++ [.branch done]) opens
  | .beginMark :: ws, done, opens => compile ws [] ((done, .test) :: opens)
  | .whileMark :: ws, done, (before, .test) :: opens =>
    compile ws [] ((before, .body done) :: opens)
  | .repeatMark :: ws, done, (before, .body test) :: opens =>
    compile ws (before ++ [.loop test done]) opens
  | _, _, _ => none

/-- the items of the text of a definition -/
def define? (dict : Dictionary) (ws : List String) : Option (List Item) :=
  (ws.mapM (Word.ofText? dict)).bind (compile · [] [])

/-! ## running -/

structure State where
  /-- the top first -/
  stack : List Int := []
  names : Dictionary := fun _ => none
  /-- by address -/
  cells : List Int := []
  printed : List Int := []

namespace State

def push (s : State) (n : Int) : State := { s with stack := n :: s.stack }

/-- puts the result of `f` on the second value and the top in their place -/
def binary (f : Int → Int → Option Int) (s : State) : Option State :=
  match s.stack with
  | b :: a :: rest => (f a b).map fun n => { s with stack := n :: rest }
  | _ => none

/-- makes a cell that holds zero, at a new address -/
def allot (s : State) (x : String) : State :=
  { s with
    names := Function.update s.names x (some s.cells.length)
    cells := s.cells ++ [0] }

def cell? (s : State) (a : Int) : Option Int := if 0 ≤ a then s.cells[a.toNat]? else none

end State

def flag (b : Bool) : Int := if b then -1 else 0

def Prim.step : Prim → State → Option State
  | .lit n, s => some (s.push n)
  | .fetch, s =>
    match s.stack with
    | a :: rest => (s.cell? a).map fun n => { s with stack := n :: rest }
    | [] => none
  | .store, s =>
    match s.stack with
    | a :: n :: rest =>
      (s.cell? a).map fun _ => { s with stack := rest, cells := s.cells.set a.toNat n }
    | _ => none
  | .add, s => s.binary fun a b => some (a + b)
  | .sub, s => s.binary fun a b => some (a - b)
  | .mul, s => s.binary fun a b => some (a * b)
  | .mod, s => s.binary fun a b => if b = 0 then none else some (a.fmod b)
  | .rel op, s => s.binary fun a b => some (flag (op.denote a b))
  | .print, s =>
    match s.stack with
    | n :: rest => some { s with stack := rest, printed := s.printed ++ [n] }
    | [] => none

/-- one item, within a budget for nesting and repetition -/
def Item.exec : Nat → Item → State → Option State
  | _, .prim p, s => p.step s
  | 0, _, _ => none
  | n + 1, .branch body, s =>
    match s.stack with
    | [] => none
    | c :: rest =>
      if c = 0 then some { s with stack := rest }
      else body.foldlM (fun s i => exec n i s) { s with stack := rest }
  | n + 1, .loop test body, s => do
    let s ← test.foldlM (fun s i => exec n i s) s
    match s.stack with
    | [] => none
    | c :: rest =>
      if c = 0 then some { s with stack := rest }
      else
        let s ← body.foldlM (fun s i => exec n i s) { s with stack := rest }
        exec n (.loop test body) s

def execAll (n : Nat) (is : List Item) (s : State) : Option State :=
  is.foldlM (fun s i => i.exec n s) s

/-- runs a text: variables, then the definition of `run` and its execution.  After a variable with
the name `variable`, no other one is made. -/
def interpret (fuel : Nat) : List String → State → Option State
  | "variable" :: x :: ws, s =>
    if (s.names "variable").isNone then interpret fuel ws (s.allot x) else none
  | ":" :: "run" :: ws, s =>
    match ws.dropWhile (· ≠ ";") with
    | [";", "run"] => (define? s.names (ws.takeWhile (· ≠ ";"))).bind (execAll fuel · s)
    | _ => none
  | _, _ => none

/-! ## compiling -/

mutual

/-- the words of an item -/
def Item.flatten : Item → List Word
  | .prim p => [.prim p]
  | .branch body => .ifMark :: (flattenAll body ++ [.thenMark])
  | .loop test body =>
    .beginMark :: (flattenAll test ++ .whileMark :: (flattenAll body ++ [.repeatMark]))

def flattenAll : List Item → List Word
  | [] => []
  | i :: is => i.flatten ++ flattenAll is

end

@[simp] theorem flattenAll_append (is js : List Item) :
    flattenAll (is ++ js) = flattenAll is ++ flattenAll js := by
  induction is with
  | nil => rfl
  | cons i is ih => rw [List.cons_append, flattenAll, ih, flattenAll, List.append_assoc]

theorem flattenAll_prims (ps : List Prim) : flattenAll (ps.map .prim) = ps.map .prim := by
  induction ps with
  | nil => rfl
  | cons p ps ih => rw [List.map_cons, flattenAll, ih]; rfl

mutual

theorem compile_item (ws : List Word) : ∀ (i : Item) (done : List Item)
    (opens : List (List Item × Open)),
    compile (i.flatten ++ ws) done opens = compile ws (done ++ [i]) opens
  | .prim p, done, opens => by
    rw [Item.flatten, List.singleton_append, compile]
  | .branch body, done, opens => by
    rw [Item.flatten, List.cons_append, compile, List.append_assoc, compile_items, List.nil_append,
      List.singleton_append, compile]
  | .loop test body, done, opens => by
    rw [Item.flatten, List.cons_append, compile, List.append_assoc, compile_items, List.nil_append,
      List.cons_append, compile, List.append_assoc, compile_items, List.nil_append,
      List.singleton_append, compile]

theorem compile_items (ws : List Word) : ∀ (is : List Item) (done : List Item)
    (opens : List (List Item × Open)),
    compile (flattenAll is ++ ws) done opens = compile ws (done ++ is) opens
  | [], done, opens => by
    rw [flattenAll, List.nil_append, List.append_nil]
  | i :: is, done, opens => by
    rw [flattenAll, List.append_assoc, compile_item, compile_items, List.append_assoc,
      List.singleton_append]

end

/-- **Compiling reads back what was flattened.** -/
theorem compile_flatten (is : List Item) : compile (flattenAll is) [] [] = some is := by
  have h := compile_items [] is [] []
  rwa [List.append_nil, List.nil_append, compile] at h

/-! ## reading -/

/-- a text that reads as the given words and does not end a definition -/
structure Reads (dict : Dictionary) (ws : List String) (is : List Word) : Prop where
  inside : ";" ∉ ws
  read : ws.mapM (Word.ofText? dict) = some is

namespace Reads

variable {dict : Dictionary}

theorem nil : Reads dict [] [] := ⟨List.not_mem_nil, rfl⟩

theorem append {ws vs : List String} {is js : List Word} (hw : Reads dict ws is)
    (hv : Reads dict vs js) : Reads dict (ws ++ vs) (is ++ js) := by
  refine ⟨?_, ?_⟩
  · rw [List.mem_append]
    exact fun h => h.elim hw.inside hv.inside
  · rw [List.mapM_append, hw.read, hv.read]
    rfl

theorem ofText {w : String} {t : Word} (hw : w ≠ ";") (h : Word.ofText? dict w = some t) :
    Reads dict [w] [t] :=
  ⟨by simpa using hw.symm, by simp [h]⟩

/-- a word that no variable has as its name -/
theorem word {w : String} {t : Word} (hfree : dict w = none) (h : Word.standard? w = some t) :
    Reads dict [w] [t] := by
  refine ofText ?_ (by rw [Word.ofText?, hfree, h])
  rintro rfl
  cases h

/-- the name of a variable -/
theorem address {x : String} {a : Nat} (hx : x ≠ ";") (h : dict x = some a) :
    Reads dict [x] [.prim (.lit a)] :=
  ofText hx (by rw [Word.ofText?, h])

theorem define? {ws : List String} {is : List Item} (h : Reads dict ws (flattenAll is)) :
    define? dict ws = some is := by
  rw [Forth.define?, h.read, Option.bind_some, compile_flatten]

end Reads

/-! ## variables -/

/-- the dictionary after some variables were made, one after the other -/
def dictionary (xs : List String) : Dictionary := fun w =>
  if w ∈ xs then some (xs.idxOf w) else none

theorem dictionary_nil : dictionary [] = fun _ => none := by
  funext w
  simp [dictionary]

theorem dictionary_concat {xs : List String} {x : String} (hx : x ∉ xs) :
    dictionary (xs ++ [x]) = Function.update (dictionary xs) x (some xs.length) := by
  funext w
  by_cases hwx : w = x
  · subst hwx
    rw [Function.update_self, dictionary, if_pos (by simp), List.idxOf_append, if_neg hx]
    simp
  · rw [Function.update_of_ne hwx, dictionary, dictionary]
    by_cases hw : w ∈ xs
    · rw [if_pos (List.mem_append_left _ hw), if_pos hw, List.idxOf_append, if_pos hw]
    · rw [if_neg (by simp [hw, hwx]), if_neg hw]

/-- a text of variables and one definition that is run at the end -/
def textWords (vars ws : List String) : List String :=
  vars.flatMap (["variable", ·]) ++ ":" :: "run" :: (ws ++ [";", "run"])

/-- with the variables `xs` made, the text makes the variables `vars` and runs its definition -/
theorem interpret_text {xs vars ws : List String} {is : List Item} (hnd : (xs ++ vars).Nodup)
    (hlast : "variable" ∉ (xs ++ vars).dropLast)
    (h : Reads (dictionary (xs ++ vars)) ws (flattenAll is)) (fuel : Nat) {s : State}
    (hs : s.names = dictionary xs) (hcells : s.cells.length = xs.length) :
    interpret fuel (textWords vars ws) s = execAll fuel is (vars.foldl State.allot s) := by
  induction vars generalizing xs s with
  | nil =>
    have hws : ∀ w ∈ ws, decide (w ≠ ";") = true := fun w hw =>
      decide_eq_true fun h' => h.inside (h' ▸ hw)
    have hbody : (ws ++ [";", "run"]).takeWhile (· ≠ ";") = ws := by
      rw [List.takeWhile_append_of_pos hws]
      simp
    have hend : (ws ++ [";", "run"]).dropWhile (· ≠ ";") = [";", "run"] := by
      rw [List.dropWhile_append_of_pos hws]
      simp
    rw [List.append_nil] at h
    rw [textWords, List.flatMap_nil, List.nil_append, interpret, hend, hbody]
    simp only [hs, h.define?, Option.bind_some, List.foldl_nil]
  | cons x vars ih =>
    have hx : x ∉ xs := fun hx => (List.nodup_append.1 hnd).2.2 x hx x List.mem_cons_self rfl
    have hfree : dictionary xs "variable" = none := by
      refine if_neg fun hv => hlast ?_
      rw [List.dropLast_append_of_ne_nil (List.cons_ne_nil x vars)]
      exact List.mem_append_left _ hv
    rw [textWords, List.flatMap_cons, List.append_assoc, List.cons_append, List.singleton_append,
      interpret, hs, hfree, List.foldl_cons]
    rw [List.append_cons] at hnd hlast h
    refine ih hnd hlast h ?_ (by simp [State.allot, hcells])
    rw [dictionary_concat hx, ← hs, ← hcells]
    rfl

/-! ## performing -/

/-- with a budget that is large enough, items lead from one state to another -/
def Performs (is : List Item) (s t : State) : Prop := ∃ K, ∀ k, K ≤ k → execAll k is s = some t

namespace Performs

variable {is js test body : List Item} {s t u : State} {rest : List Int} {c : Int}

theorem nil : Performs [] s s := ⟨0, fun _ _ => rfl⟩

theorem append (h : Performs is s t) (h' : Performs js t u) : Performs (is ++ js) s u := by
  obtain ⟨K, hK⟩ := h
  obtain ⟨L, hL⟩ := h'
  refine ⟨max K L, fun k hk => ?_⟩
  rw [execAll, List.foldlM_append]
  show (execAll k is s).bind (execAll k js) = _
  rw [hK k (by omega), Option.bind_some, hL k (by omega)]

theorem prim {p : Prim} (h : p.step s = some t) : Performs [.prim p] s t := by
  refine ⟨0, fun k _ => ?_⟩
  rw [execAll, List.foldlM_cons, Item.exec, h]
  rfl

theorem branch_taken (hs : s.stack = c :: rest) (hc : c ≠ 0)
    (h : Performs body { s with stack := rest } t) : Performs [.branch body] s t := by
  obtain ⟨K, hK⟩ := h
  refine ⟨K + 1, fun k hk => ?_⟩
  obtain ⟨k, rfl⟩ : ∃ j, k = j + 1 := ⟨k - 1, by omega⟩
  rw [execAll, List.foldlM_cons, Item.exec, hs]
  simp only [if_neg hc]
  rw [show body.foldlM (fun s i => i.exec k s) { s with stack := rest } = some t from
    hK k (by omega)]
  rfl

theorem branch_skipped (hs : s.stack = 0 :: rest) :
    Performs [.branch body] s { s with stack := rest } := by
  refine ⟨1, fun k hk => ?_⟩
  obtain ⟨k, rfl⟩ : ∃ j, k = j + 1 := ⟨k - 1, by omega⟩
  rw [execAll, List.foldlM_cons, Item.exec, hs]
  rfl

theorem loop_left (htest : Performs test s t) (ht : t.stack = 0 :: rest) :
    Performs [.loop test body] s { t with stack := rest } := by
  obtain ⟨K, hK⟩ := htest
  refine ⟨K + 1, fun k hk => ?_⟩
  obtain ⟨k, rfl⟩ : ∃ j, k = j + 1 := ⟨k - 1, by omega⟩
  rw [execAll, List.foldlM_cons, Item.exec,
    show test.foldlM (fun s i => i.exec k s) s = some t from hK k (by omega)]
  simp [ht]

theorem loop_again {v : State} (htest : Performs test s t) (ht : t.stack = c :: rest) (hc : c ≠ 0)
    (hbody : Performs body { t with stack := rest } u) (hloop : Performs [.loop test body] u v) :
    Performs [.loop test body] s v := by
  obtain ⟨K, hK⟩ := htest
  obtain ⟨L, hL⟩ := hbody
  obtain ⟨M, hM⟩ := hloop
  refine ⟨max K (max L M) + 1, fun k hk => ?_⟩
  obtain ⟨k, rfl⟩ : ∃ j, k = j + 1 := ⟨k - 1, by omega⟩
  have hagain : Item.exec k (.loop test body) u = some v := by
    have h := hM k (by omega)
    rw [execAll, List.foldlM_cons] at h
    obtain ⟨w, hw, hnil⟩ := Option.bind_eq_some_iff.1 h
    rw [List.foldlM_nil] at hnil
    cases hnil
    exact hw
  rw [execAll, List.foldlM_cons, Item.exec,
    show test.foldlM (fun s i => i.exec k s) s = some t from hK k (by omega)]
  simp only [Option.bind_eq_bind, Option.bind_some, ht, if_neg hc]
  rw [show body.foldlM (fun s i => i.exec k s) { t with stack := rest } = some u from
    hL k (by omega), Option.bind_some, hagain]
  rfl

end Performs

end Pl0Kit.Forth
