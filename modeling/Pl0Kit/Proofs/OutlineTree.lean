import Pl0Kit.Proofs.OutlineRows

/-!
# Outlines determine trees

The rows of an outline can be read in one way only: a part of a program ends where a row comes that
is no deeper than its first one.  With `chars_inj` the outline of a parsed program tells the
program.

* `Program.rows`    the rows of a program, and so for its parts;
* `Outlined v d rs` printing the tree `v` at depth `d` prints the rows `rs`;
* `Unique f d a`    the rows `f d a` can be told from whatever follows, and tell `a`.
-/

namespace Pl0Kit

open Outline

/-! ## rows of programs -/

/-- the first row of a list: its tag if items follow, else the list itself -/
def Outline.headRow (d : Nat) (tag : String) (empty : Bool) : Row :=
  (d, if empty then .list [.str tag] else .str tag)

def signRows (d : Nat) : Option AddOp → List Row
  | none => []
  | some op => [(d, .str op.word)]

mutual

def Expr.rows (d : Nat) : Expr → List Row
  | .mk sign first rest =>
    (d, .str "EXPRESSION") ::
      (signRows (d + 1) sign ++ (first.rows (d + 1) ++ Expr.tailRows (d + 1) rest))

def Expr.tailRows (d : Nat) : List (AddOp × Term) → List Row
  | [] => []
  | (op, t) :: rest => (d, .str op.word) :: (t.rows (d + 1) ++ Expr.tailRows d rest)

def Term.rows (d : Nat) : Term → List Row
  | .mk first rest => (d, .str "TERM") :: (first.rows (d + 1) ++ Term.tailRows (d + 1) rest)

def Term.tailRows (d : Nat) : List (MulOp × Factor) → List Row
  | [] => []
  | (op, f) :: rest => (d, .str op.word) :: (f.rows (d + 1) ++ Term.tailRows d rest)

def Factor.rows (d : Nat) : Factor → List Row
  | .name x => [(d, nameValue x)]
  | .number n => [(d, .tuple [.str "NUMBER", .int n])]
  | .paren e => e.rows d

end

def Condition.rows (d : Nat) : Condition → List Row
  | .odd e => (d, .str "ODD") :: e.rows (d + 1)
  | .compare l op r =>
    (d, .str "CONDITION") :: (l.rows (d + 1) ++ (d + 1, .str op.word) :: r.rows (d + 1))

def Statement.rows (d : Nat) : Statement → List Row
  | .assign x e => (d, .str "SET") :: (d + 1, nameValue x) :: e.rows (d + 1)
  | .call q => [(d, .tuple [.str "CALL", .str q])]
  | .block body => headRow d "BEGIN" body.isEmpty :: bodyRows (d + 1) body
  | .ifThen c s => (d, .str "IF") :: (c.rows (d + 1) ++ s.rows (d + 1))
  | .whileDo c s => (d, .str "WHILE") :: (c.rows (d + 1) ++ s.rows (d + 1))
  | .print e => (d, .str "PRINT") :: e.rows (d + 1)
where
  bodyRows (d : Nat) : List Statement → List Row
    | [] => []
    | s :: ss => s.rows d ++ bodyRows d ss

/-- a part of a block that declares names, if it is there: one row for each of them -/
def sectionRows {α : Type} (d : Nat) (tag : String) (item : α → Value) : Option (List α) → List Row
  | none => []
  | some xs => headRow d tag xs.isEmpty :: xs.map fun x => (d + 1, item x)

/-- the procedure part, by the rows of the procedures -/
def procsRows (d : Nat) : List Row → List Row
  | [] => []
  | rs => (d, .str "PROCEDURES") :: rs

mutual

def Block.rows (d : Nat) : Block → List Row
  | .mk consts vars procs body =>
    (d, .str "BLOCK") :: (sectionRows (d + 1) "CONSTANTS" defineValue consts ++
      (sectionRows (d + 1) "VARIABLES" nameValue vars ++
        (procsRows (d + 1) (Block.procRows (d + 2) procs) ++
        body.rows (d + 1))))

def Block.procRows (d : Nat) : List (String × Block) → List Row
  | [] => []
  | (q, b) :: rest =>
    (d, .str "PROCEDURE") :: (d + 1, .str q) :: (b.rows (d + 1) ++ Block.procRows d rest)

end

def Program.rows (d : Nat) (p : Program) : List Row := (d, .str "PROGRAM") :: p.block.rows (d + 1)

/-! ## printing rows -/

namespace Outline

open Act Pl0Kit.Symbol

/-- a visit that prints rows, which are legible -/
structure Writes (p : Print Unit) (rs : List Row) : Prop where
  exec_eq : ∀ out, exec p out = (.ok (), out ++ String.ofList (chars rs))
  legible : ∀ r ∈ rs, Legible r.2

/-- a tree is printed as rows -/
def Outlined (v : Value) (d : Nat) (rs : List Row) : Prop := Writes (print d v) rs

/-- parts of a tree are printed as rows -/
def OutlinedAll (vs : List Value) (d : Nat) (rs : List Row) : Prop := Writes (printAll d vs) rs

theorem Writes.nil : Writes (pure ()) [] :=
  ⟨fun out => by rw [chars_nil, String.ofList_nil, String.append_empty]; rfl, List.forall_mem_nil _⟩

theorem Writes.append {p q : Print Unit} {rs rs' : List Row} (hp : Writes p rs)
    (hq : Writes q rs') : Writes (do p; q) (rs ++ rs') := by
  refine ⟨fun out => ?_, List.forall_mem_append.2 ⟨hp.legible, hq.legible⟩⟩
  rw [exec_then (hp.exec_eq out), hq.exec_eq, chars_append, String.ofList_append,
    String.append_assoc]

theorem writes_line {v : Value} (h : Legible v) (d : Nat) : Writes (line d v.text) [(d, v)] := by
  refine ⟨fun out => ?_, List.forall_mem_singleton.2 h⟩
  have htext : String.ofList (chars [(d, v)]) =
      String.ofList (List.replicate (2 * d) ' ') ++ v.text ++ "\n" := by
    simp [rowChars, String.ofList_append, String.append_assoc]
  rw [htext, ← String.append_assoc, ← String.append_assoc]
  rfl

namespace OutlinedAll

variable {v : Value} {vs : List Value} {d : Nat} {rs rs' : List Row}

theorem nil : OutlinedAll [] d [] := Writes.nil

theorem cons (h : Outlined v d rs) (h' : OutlinedAll vs d rs') :
    OutlinedAll (v :: vs) d (rs ++ rs') := h.append h'

theorem single (h : Outlined v d rs) : OutlinedAll [v] d rs := by
  simpa using cons h nil

end OutlinedAll

/-! ## printing nodes -/

section Nodes

variable {v : Value} {tag : String} {vs : List Value} {d : Nat} {rs : List Row}

theorem outlined_none : Outlined .none d [] := Writes.nil

theorem Plain.not_inner (h : Plain v) : isInner v = false := by
  cases h <;> rfl

/-- what is legible is printed in one row -/
theorem outlined_leaf (h : Legible v) (d : Nat) : Outlined v d [(d, v)] := by
  have hline := writes_line h d
  have hall : ∀ {xs : List Value}, (∀ x ∈ xs, Plain x) → (xs.all fun x => !isInner x) = true := by
    intro xs hxs
    rw [List.all_eq_true]
    intro x hx
    rw [(hxs x hx).not_inner]
    rfl
  cases h with
  | word _ => exact hline
  | list hx | tuple hx =>
    rw [Outlined, print, printNode, isFlat, hall hx]
    exact hline

/-- a node with inner nodes is printed as its tag with its parts below -/
theorem writes_printNode {whole : Value} (hflat : isFlat whole = .ok false) (htag : Wordlike tag)
    (h : OutlinedAll vs (d + 1) rs) :
    Writes (printNode d whole (.str tag :: vs)) ((d, .str tag) :: rs) := by
  rw [printNode, hflat]
  exact (outlined_leaf (.word htag) d).append h

theorem all_eq_false (hinner : ∃ x ∈ vs, isInner x = true) :
    ((.str tag :: vs).all fun x => !isInner x) = false := by
  obtain ⟨x, hx, hin⟩ := hinner
  exact List.all_eq_false.2 ⟨x, List.mem_cons_of_mem _ hx, by simp [hin]⟩

theorem outlined_list (htag : Wordlike tag) (hinner : ∃ x ∈ vs, isInner x = true)
    (h : OutlinedAll vs (d + 1) rs) :
    Outlined (.list (.str tag :: vs)) d ((d, .str tag) :: rs) := by
  rw [Outlined, print]
  exact writes_printNode (congrArg Except.ok (all_eq_false hinner)) htag h

theorem outlined_tuple (htag : Wordlike tag) (hinner : ∃ x ∈ vs, isInner x = true)
    (h : OutlinedAll vs (d + 1) rs) :
    Outlined (.tuple (.str tag :: vs)) d ((d, .str tag) :: rs) := by
  rw [Outlined, print]
  exact writes_printNode (congrArg Except.ok (all_eq_false hinner)) htag h

theorem OutlinedAll.leaves {α : Type} {item : α → Value} {xs : List α}
    (h : ∀ x ∈ xs, Legible (item x)) (d : Nat) :
    OutlinedAll (xs.map item) d (xs.map fun x => (d, item x)) := by
  induction xs with
  | nil => exact .nil
  | cons x xs ih =>
    obtain ⟨hx, hxs⟩ := List.forall_mem_cons.1 h
    exact .cons (outlined_leaf hx d) (ih hxs)

end Nodes

/-! ## printing programs -/

theorem legible_name {x : String} (h : Wordlike x) : Legible (nameValue x) :=
  .tuple (List.forall_mem_cons.2 ⟨.word (by decide), List.forall_mem_singleton.2 (.word h)⟩)

theorem legible_number (n : Nat) : Legible (.tuple [.str "NUMBER", .int n]) :=
  .tuple (List.forall_mem_cons.2 ⟨.word (by decide), List.forall_mem_singleton.2 (.number n)⟩)

theorem legible_call {q : String} (h : Wordlike q) : Legible (.tuple [.str "CALL", .str q]) :=
  .tuple (List.forall_mem_cons.2 ⟨.word (by decide), List.forall_mem_singleton.2 (.word h)⟩)

theorem legible_define {c : String × Nat} (h : Wordlike c.1) : Legible (defineValue c) :=
  .tuple (List.forall_mem_cons.2 ⟨.word (by decide),
    List.forall_mem_cons.2 ⟨.word h, List.forall_mem_singleton.2 (.number c.2)⟩⟩)

theorem legible_empty {tag : String} (h : Wordlike tag) : Legible (.list [.str tag]) :=
  .list (List.forall_mem_singleton.2 (.word h))

theorem isInner_expr (e : Expr) : isInner e.toValue = true := by
  cases e
  rfl

theorem isInner_term (t : Term) : isInner t.toValue = true := by
  cases t
  rfl

theorem isInner_factor (f : Factor) : isInner f.toValue = true := by
  cases f with
  | name x => rfl
  | number n => rfl
  | paren e => exact isInner_expr e

theorem isInner_statement (s : Statement) : isInner s.toValue = true := by
  cases s <;> rfl

theorem isInner_block (b : Block) : isInner b.toValue = true := by
  cases b
  rfl

mutual

theorem outlined_expr :
    ∀ (e : Expr) (d : Nat), Names Wordlike e.symbols → Outlined e.toValue d (e.rows d)
  | .mk none first rest, d, h => by
    rw [Expr.symbols, names_append] at h
    exact outlined_list (by decide)
      ⟨_, List.mem_cons_of_mem _ List.mem_cons_self, isInner_term first⟩
      (.cons outlined_none
        (.cons (outlined_term first (d + 1) h.1) (outlined_terms rest (d + 1) h.2)))
  | .mk (some op) first rest, d, h => by
    rw [Expr.symbols, names_sign, names_append] at h
    have hop : Wordlike op.word := by cases op <;> decide
    exact outlined_list (by decide)
      ⟨_, List.mem_cons_of_mem _ List.mem_cons_self, isInner_term first⟩
      (.cons (outlined_leaf (.word hop) (d + 1))
        (.cons (outlined_term first (d + 1) h.1) (outlined_terms rest (d + 1) h.2)))

theorem outlined_terms :
    ∀ (rest : List (AddOp × Term)) (d : Nat), Names Wordlike (Expr.tailSymbols rest) →
    OutlinedAll (Expr.tailValues rest) d (Expr.tailRows d rest)
  | [], _, _ => .nil
  | (op, t) :: rest, d, h => by
    rw [Expr.tailSymbols, names_sign, names_append] at h
    have hop : Wordlike op.word := by cases op <;> decide
    exact .cons (outlined_tuple hop ⟨_, List.mem_cons_self, isInner_term t⟩
      (.single (outlined_term t (d + 1) h.1))) (outlined_terms rest d h.2)

theorem outlined_term :
    ∀ (t : Term) (d : Nat), Names Wordlike t.symbols → Outlined t.toValue d (t.rows d)
  | .mk first rest, d, h => by
    rw [Term.symbols, names_append] at h
    exact outlined_list (by decide) ⟨_, List.mem_cons_self, isInner_factor first⟩
      (.cons (outlined_factor first (d + 1) h.1) (outlined_factors rest (d + 1) h.2))

theorem outlined_factors :
    ∀ (rest : List (MulOp × Factor)) (d : Nat), Names Wordlike (Term.tailSymbols rest) →
    OutlinedAll (Term.tailValues rest) d (Term.tailRows d rest)
  | [], _, _ => .nil
  | (op, f) :: rest, d, h => by
    rw [Term.tailSymbols, names_sign, names_append] at h
    have hop : Wordlike op.word := by cases op <;> decide
    exact .cons
      (outlined_tuple hop ⟨_, List.mem_cons_self, isInner_factor f⟩
        (.single (outlined_factor f (d + 1) h.1)))
      (outlined_factors rest d h.2)

theorem outlined_factor :
    ∀ (f : Factor) (d : Nat), Names Wordlike f.symbols → Outlined f.toValue d (f.rows d)
  | .name _, d, h => outlined_leaf (legible_name (names_name.1 h).1) d
  | .number n, d, _ => outlined_leaf (legible_number n) d
  | .paren e, d, h => outlined_expr e d (names_append.1 (names_sign.1 h)).1

end

theorem outlined_condition (c : Condition) (d : Nat) (h : Names Wordlike c.symbols) :
    Outlined c.toValue d (c.rows d) := by
  cases c with
  | odd e =>
    exact outlined_tuple (by decide) ⟨_, List.mem_cons_self, isInner_expr e⟩
      (.single (outlined_expr e (d + 1) (names_keyword.1 h)))
  | compare l op r =>
    rw [Condition.symbols, names_append, names_sign] at h
    have hop : Wordlike op.word := by cases op <;> decide
    exact outlined_tuple (by decide) ⟨_, List.mem_cons_self, isInner_expr l⟩
      (.cons (outlined_expr l (d + 1) h.1) (.cons (outlined_leaf (.word hop) (d + 1))
        (.single (outlined_expr r (d + 1) h.2))))

theorem isInner_condition (c : Condition) : isInner c.toValue = true := by
  cases c <;> rfl

mutual

theorem outlined_statement : ∀ (s : Statement) (d : Nat), Names Wordlike s.symbols →
    Outlined s.toValue d (s.rows d)
  | .assign _ e, d, h => by
    rw [Statement.symbols, names_name, names_sign] at h
    exact outlined_tuple (by decide) ⟨_, List.mem_cons_self, rfl⟩
      (.cons (outlined_leaf (legible_name h.1) (d + 1)) (.single (outlined_expr e (d + 1) h.2)))
  | .call _, d, h => outlined_leaf (legible_call (names_name.1 (names_keyword.1 h)).1) d
  | .block [], d, _ => outlined_leaf (legible_empty (by decide)) d
  | .block (s :: ss), d, h => by
    rw [Statement.symbols, names_keyword, names_append, names_append] at h
    exact outlined_list (by decide) ⟨_, List.mem_cons_self, isInner_statement s⟩
      (.cons (outlined_statement s (d + 1) h.1) (outlined_body ss (d + 1) h.2.1))
  | .ifThen c s, d, h => by
    rw [Statement.symbols, names_keyword, names_append, names_keyword] at h
    exact outlined_tuple (by decide) ⟨_, List.mem_cons_self, isInner_condition c⟩
      (.cons (outlined_condition c (d + 1) h.1) (.single (outlined_statement s (d + 1) h.2)))
  | .whileDo c s, d, h => by
    rw [Statement.symbols, names_keyword, names_append, names_keyword] at h
    exact outlined_tuple (by decide) ⟨_, List.mem_cons_self, isInner_condition c⟩
      (.cons (outlined_condition c (d + 1) h.1) (.single (outlined_statement s (d + 1) h.2)))
  | .print e, d, h =>
    outlined_tuple (by decide) ⟨_, List.mem_cons_self, isInner_expr e⟩
      (.single (outlined_expr e (d + 1) (names_sign.1 h)))

theorem outlined_body :
    ∀ (ss : List Statement) (d : Nat), Names Wordlike (Statement.symbols.laterSymbols ss) →
    OutlinedAll (Statement.toValue.bodyValues ss) d (Statement.rows.bodyRows d ss)
  | [], _, _ => .nil
  | s :: ss, d, h => by
    rw [Statement.symbols.laterSymbols, names_sign, names_append] at h
    exact .cons (outlined_statement s d h.1) (outlined_body ss d h.2)

end

/-- the list of a part that declares names -/
theorem outlined_section {α : Type} {tag : String} {item : α → Value} {xs : List α}
    (htag : Wordlike tag) (h : ∀ x ∈ xs, Legible (item x)) (hinner : ∀ x, isInner (item x) = true)
    (d : Nat) :
    Outlined (.list (.str tag :: xs.map item)) d (sectionRows d tag item (some xs)) := by
  cases xs with
  | nil => exact outlined_leaf (legible_empty htag) d
  | cons x xs => exact outlined_list htag ⟨_, List.mem_cons_self, hinner x⟩ (.leaves h (d + 1))

theorem outlined_consts (consts : Option (List (String × Nat))) (d : Nat)
    (h : Names Wordlike (constsSymbols consts)) :
    Outlined (constsValue consts) d (sectionRows d "CONSTANTS" defineValue consts) := by
  cases consts with
  | none => exact outlined_none
  | some ds =>
    rw [constsSymbols, names_keyword, names_append, names_commaList] at h
    refine outlined_section (by decide) (fun c hc => ?_) (fun _ => rfl) d
    exact legible_define (names_name.1 (h.1 _ (List.mem_map_of_mem hc))).1

theorem outlined_vars (vars : Option (List String)) (d : Nat)
    (h : Names Wordlike (varsSymbols vars)) :
    Outlined (varsValue vars) d (sectionRows d "VARIABLES" nameValue vars) := by
  cases vars with
  | none => exact outlined_none
  | some xs =>
    rw [varsSymbols, names_keyword, names_append, names_commaList] at h
    refine outlined_section (by decide) (fun x hx => ?_) (fun _ => rfl) d
    exact legible_name (names_name.1 (h.1 _ (List.mem_map_of_mem hx))).1

mutual

theorem outlined_block :
    ∀ (b : Block) (d : Nat), Names Wordlike b.symbols → Outlined b.toValue d (b.rows d)
  | .mk consts vars procs body, d, h => by
    rw [Block.symbols, names_append, names_append, names_append] at h
    obtain ⟨hconsts, hvars, hprocs, hbody⟩ := h
    have hsection : Outlined (procsValue (Block.procValues procs)) (d + 1)
        (procsRows (d + 1) (Block.procRows (d + 2) procs)) := by
      have hall := outlined_procs procs (d + 2) hprocs
      cases procs with
      | nil => exact outlined_none
      | cons p procs => exact outlined_list (by decide) ⟨_, List.mem_cons_self, rfl⟩ hall
    exact outlined_tuple (by decide) ⟨body.toValue, by simp, isInner_statement body⟩
      (.cons (outlined_consts consts (d + 1) hconsts) (.cons (outlined_vars vars (d + 1) hvars)
        (.cons hsection (.single (outlined_statement body (d + 1) hbody)))))

theorem outlined_procs :
    ∀ (procs : List (String × Block)) (d : Nat), Names Wordlike (Block.procSymbols procs) →
    OutlinedAll (Block.procValues procs) d (Block.procRows d procs)
  | [], _, _ => .nil
  | (q, b) :: rest, d, h => by
    rw [Block.procSymbols, names_keyword, names_name, names_sign, names_append, names_sign] at h
    exact .cons
      (outlined_tuple (by decide) ⟨_, List.mem_cons_of_mem _ List.mem_cons_self, isInner_block b⟩
      (.cons (outlined_leaf (.word h.1) (d + 1)) (.single (outlined_block b (d + 1) h.2.1))))
      (outlined_procs rest d h.2.2)

end

/-! ## reading rows -/

/-- the rows are at an end, or go on no deeper than `d` -/
def Below (d : Nat) (rs : List Row) : Prop := ∀ r ∈ rs.head?, r.1 ≤ d

section Below

variable {d d' : Nat} {v : Value} {rs : List Row}

theorem below_cons : Below d ((d', v) :: rs) ↔ d' ≤ d := by
  simp [Below]

theorem below_nil : Below d [] := by
  simp [Below]

theorem Below.mono (h : Below d rs) (hd : d ≤ d') : Below d' rs := fun r hr => (h r hr).trans hd

end Below

/-- rows printed at depth `d` for `a` tell `a`, and where they end, if what follows is no deeper -/
def Unique {α : Type} (f : Nat → α → List Row) (d : Nat) (a : α) : Prop :=
  ∀ ⦃b : α⦄ ⦃r r' : List Row⦄, Below d r → Below d r' → f d a ++ r = f d b ++ r' → a = b ∧ r = r'

theorem addOp_word_inj {op op' : AddOp} (h : op.word = op'.word) : op = op' := by
  cases op <;> cases op' <;> first | rfl | exact absurd h (by decide)

theorem mulOp_word_inj {op op' : MulOp} (h : op.word = op'.word) : op = op' := by
  cases op <;> cases op' <;> first | rfl | exact absurd h (by decide)

theorem relOp_word_inj {op op' : RelOp} (h : op.word = op'.word) : op = op' := by
  cases op <;> cases op' <;> first | rfl | exact absurd h (by decide)

/-- a sign is told from the term that comes after it or in its place -/
theorem signRows_unique {sign sign' : Option AddOp} {t t' : Term} {d : Nat} {r r' : List Row}
    (h : signRows d sign ++ (t.rows d ++ r) = signRows d sign' ++ (t'.rows d ++ r')) :
    sign = sign' ∧ t.rows d ++ r = t'.rows d ++ r' := by
  have hterm : ∀ op : AddOp, op.word ≠ "TERM" := by
    intro op
    cases op <;> decide
  obtain ⟨f, fs⟩ := t
  obtain ⟨f', fs'⟩ := t'
  cases sign with
  | none =>
    cases sign' with
    | none => exact ⟨rfl, h⟩
    | some op' =>
      simp only [signRows, Term.rows, List.cons_append, List.nil_append, List.cons.injEq,
        Prod.mk.injEq, Value.str.injEq, true_and] at h
      exact absurd h.1.symm (hterm op')
  | some op =>
    cases sign' with
    | none =>
      simp only [signRows, Term.rows, List.cons_append, List.nil_append, List.cons.injEq,
        Prod.mk.injEq, Value.str.injEq, true_and] at h
      exact absurd h.1 (hterm op)
    | some op' =>
      simp only [signRows, List.cons_append, List.nil_append, List.cons.injEq, Prod.mk.injEq,
        Value.str.injEq, true_and] at h
      exact ⟨congrArg some (addOp_word_inj h.1), h.2⟩

theorem below_terms {d : Nat} {r : List Row} (rest : List (AddOp × Term)) (h : Below d r) :
    Below (d + 1) (Expr.tailRows (d + 1) rest ++ r) := by
  cases rest with
  | nil => exact h.mono (Nat.le_succ d)
  | cons x rest => exact below_cons.2 le_rfl

theorem below_factors {d : Nat} {r : List Row} (rest : List (MulOp × Factor)) (h : Below d r) :
    Below (d + 1) (Term.tailRows (d + 1) rest ++ r) := by
  cases rest with
  | nil => exact h.mono (Nat.le_succ d)
  | cons x rest => exact below_cons.2 le_rfl

mutual

theorem unique_expr : ∀ (e : Expr) (d : Nat), Unique Expr.rows d e
  | .mk op first rest, d => by
    rintro ⟨op', first', rest'⟩ r r' hr hr' h
    simp only [Expr.rows, List.cons_append, List.append_assoc, List.cons.injEq, true_and] at h
    obtain ⟨rfl, hfirst⟩ := signRows_unique h
    obtain ⟨rfl, hrest⟩ :=
      unique_term first (d + 1) (below_terms rest hr) (below_terms rest' hr') hfirst
    obtain ⟨rfl, rfl⟩ := unique_terms rest d hr hr' hrest
    exact ⟨rfl, rfl⟩

theorem unique_terms :
    ∀ (rest : List (AddOp × Term)) (d : Nat) {rest' : List (AddOp × Term)} {r r' : List Row},
    Below d r → Below d r' → Expr.tailRows (d + 1) rest ++ r = Expr.tailRows (d + 1) rest' ++ r' →
      rest = rest' ∧ r = r'
  | [], _, [], _, _, _, _, h => ⟨rfl, h⟩
  | [], d, (op, t) :: rest', r, _, hr, _, h => by
    subst h
    exact absurd (below_cons.1 hr) (Nat.not_succ_le_self d)
  | (op, t) :: rest, d, [], _, r', _, hr', h => by
    subst h
    exact absurd (below_cons.1 hr') (Nat.not_succ_le_self d)
  | (op, t) :: rest, d, (op', t') :: rest', r, r', hr, hr', h => by
    simp only [Expr.tailRows, List.cons_append, List.append_assoc, List.cons.injEq, Prod.mk.injEq,
      Value.str.injEq, true_and] at h
    obtain ⟨hop, hterm⟩ := h
    obtain rfl := addOp_word_inj hop
    -- the term stands one level deeper than the operator, so the next operator ends it
    obtain ⟨rfl, hrest⟩ := unique_term t (d + 2) ((below_terms rest hr).mono (Nat.le_succ _))
      ((below_terms rest' hr').mono (Nat.le_succ _)) hterm
    obtain ⟨rfl, rfl⟩ := unique_terms rest d hr hr' hrest
    exact ⟨rfl, rfl⟩

theorem unique_term : ∀ (t : Term) (d : Nat), Unique Term.rows d t
  | .mk first rest, d => by
    rintro ⟨first', rest'⟩ r r' hr hr' h
    simp only [Term.rows, List.cons_append, List.append_assoc, List.cons.injEq, true_and] at h
    obtain ⟨rfl, hrest⟩ :=
      unique_factor first (d + 1) (below_factors rest hr) (below_factors rest' hr') h
    obtain ⟨rfl, rfl⟩ := unique_factors rest d hr hr' hrest
    exact ⟨rfl, rfl⟩

theorem unique_factors : ∀ (rest : List (MulOp × Factor)) (d : Nat) {rest' : List (MulOp × Factor)}
    {r r' : List Row}, Below d r → Below d r' →
      Term.tailRows (d + 1) rest ++ r = Term.tailRows (d + 1) rest' ++ r' → rest = rest' ∧ r = r'
  | [], _, [], _, _, _, _, h => ⟨rfl, h⟩
  | [], d, (op, f) :: rest', r, _, hr, _, h => by
    subst h
    exact absurd (below_cons.1 hr) (Nat.not_succ_le_self d)
  | (op, f) :: rest, d, [], _, r', _, hr', h => by
    subst h
    exact absurd (below_cons.1 hr') (Nat.not_succ_le_self d)
  | (op, f) :: rest, d, (op', f') :: rest', r, r', hr, hr', h => by
    simp only [Term.tailRows, List.cons_append, List.append_assoc, List.cons.injEq, Prod.mk.injEq,
      Value.str.injEq, true_and] at h
    obtain ⟨hop, hfactor⟩ := h
    obtain rfl := mulOp_word_inj hop
    obtain ⟨rfl, hrest⟩ := unique_factor f (d + 2) ((below_factors rest hr).mono (Nat.le_succ _))
      ((below_factors rest' hr').mono (Nat.le_succ _)) hfactor
    obtain ⟨rfl, rfl⟩ := unique_factors rest d hr hr' hrest
    exact ⟨rfl, rfl⟩

theorem unique_factor : ∀ (f : Factor) (d : Nat), Unique Factor.rows d f
  | .name x, d => by
    rintro (y | m | ⟨op, first, rest⟩) r r' _ _ h
    · cases h
      exact ⟨rfl, rfl⟩
    · simp [Factor.rows, nameValue] at h
    · simp [Factor.rows, Expr.rows, nameValue] at h
  | .number n, d => by
    rintro (y | m | ⟨op, first, rest⟩) r r' _ _ h
    · simp [Factor.rows, nameValue] at h
    · cases h
      exact ⟨rfl, rfl⟩
    · simp [Factor.rows, Expr.rows] at h
  | .paren e, d => by
    rintro (y | m | e') r r' hr hr' h
    · cases e
      simp [Factor.rows, Expr.rows, nameValue] at h
    · cases e
      simp [Factor.rows, Expr.rows] at h
    · obtain ⟨rfl, rfl⟩ := unique_expr e d hr hr' h
      exact ⟨rfl, rfl⟩

end

theorem unique_condition (c : Condition) (d : Nat) : Unique Condition.rows d c := by
  intro c' r r' hr hr' h
  have hnext := hr.mono (Nat.le_succ d)
  have hnext' := hr'.mono (Nat.le_succ d)
  cases c with
  | odd e =>
    cases c' with
    | odd e' =>
      obtain ⟨rfl, rfl⟩ := unique_expr e (d + 1) hnext hnext' (List.cons.inj h).2
      exact ⟨rfl, rfl⟩
    | compare l' op' e' => simp [Condition.rows] at h
  | compare l op e =>
    cases c' with
    | odd e' => simp [Condition.rows] at h
    | compare l' op' e' =>
      simp only [Condition.rows, List.cons_append, List.append_assoc, List.cons.injEq,
        true_and] at h
      obtain ⟨rfl, hright⟩ := unique_expr l (d + 1) (below_cons.2 le_rfl) (below_cons.2 le_rfl) h
      simp only [List.cons.injEq, Prod.mk.injEq, Value.str.injEq, true_and] at hright
      obtain rfl := relOp_word_inj hright.1
      obtain ⟨rfl, rfl⟩ := unique_expr e (d + 1) hnext hnext' hright.2
      exact ⟨rfl, rfl⟩

/-! ## reading statements -/

section HeadRow

variable {d d' : Nat} {tag tag' : String} {empty empty' : Bool}

@[simp] theorem headRow_eq_word {w : String} :
    headRow d tag empty = (d', .str w) ↔ d = d' ∧ empty = false ∧ tag = w := by
  cases empty <;> simp [headRow]

@[simp] theorem word_eq_headRow {w : String} :
    (d', .str w) = headRow d tag empty ↔ d = d' ∧ empty = false ∧ tag = w := by
  rw [eq_comm, headRow_eq_word]

@[simp] theorem headRow_ne_tuple {xs : List Value} : headRow d tag empty ≠ (d', .tuple xs) := by
  cases empty <;> simp [headRow]

@[simp] theorem tuple_ne_headRow {xs : List Value} : (d', .tuple xs) ≠ headRow d tag empty :=
  headRow_ne_tuple.symm

theorem tag_of_headRow (h : headRow d tag empty = headRow d' tag' empty') : tag = tag' := by
  cases empty <;> cases empty' <;> simp [headRow] at h <;> exact h.2

theorem below_headRow {rs : List Row} : Below d (headRow d tag empty :: rs) := below_cons.2 le_rfl

end HeadRow

theorem statement_rows (s : Statement) (d : Nat) : ∃ v rs, s.rows d = (d, v) :: rs := by
  cases s <;> exact ⟨_, _, rfl⟩

theorem below_statement (s : Statement) (d : Nat) (r : List Row) : Below d (s.rows d ++ r) := by
  obtain ⟨v, rs, hrows⟩ := statement_rows s d
  rw [hrows]
  exact below_cons.2 le_rfl

theorem below_body {d : Nat} {r : List Row} (ss : List Statement) (h : Below d r) :
    Below (d + 1) (Statement.rows.bodyRows (d + 1) ss ++ r) := by
  cases ss with
  | nil => exact h.mono (Nat.le_succ d)
  | cons s ss =>
    rw [Statement.rows.bodyRows, List.append_assoc]
    exact below_statement s (d + 1) _

/-- statements one level deeper do not begin where those of a body end -/
theorem not_below_statement {s : Statement} {d : Nat} {r : List Row} :
    ¬ Below d (s.rows (d + 1) ++ r) := by
  obtain ⟨v, rs, hrows⟩ := statement_rows s (d + 1)
  rw [hrows]
  exact fun h => absurd (below_cons.1 h) (Nat.not_succ_le_self d)

mutual

theorem unique_statement : ∀ (s : Statement) (d : Nat), Unique Statement.rows d s
  | .assign x e, d => by
    intro s' r r' hr hr' h
    cases s' with
    | assign x' e' =>
      simp only [Statement.rows, nameValue, List.cons_append, List.cons.injEq, Prod.mk.injEq,
        Value.tuple.injEq, Value.str.injEq, true_and, and_true] at h
      obtain ⟨rfl, hrest⟩ := h
      obtain ⟨rfl, rfl⟩ :=
        unique_expr e (d + 1) (hr.mono (Nat.le_succ d)) (hr'.mono (Nat.le_succ d)) hrest
      exact ⟨rfl, rfl⟩
    | _ => simp [Statement.rows] at h
  | .call q, d => by
    intro s' r r' hr hr' h
    cases s' with
    | call q' =>
      cases h
      exact ⟨rfl, rfl⟩
    | _ => simp [Statement.rows] at h
  | .block ss, d => by
    intro s' r r' hr hr' h
    cases s' with
    | block ss' =>
      obtain ⟨rfl, rfl⟩ := unique_body ss d hr hr' (List.cons.inj h).2
      exact ⟨rfl, rfl⟩
    | _ => simp [Statement.rows] at h
  | .ifThen c s, d => by
    intro s' r r' hr hr' h
    cases s' with
    | ifThen c' t =>
      simp only [Statement.rows, List.cons_append, List.append_assoc, List.cons.injEq,
        true_and] at h
      obtain ⟨rfl, hbody⟩ :=
        unique_condition c (d + 1) (below_statement s _ _) (below_statement t _ _) h
      obtain ⟨rfl, rfl⟩ :=
        unique_statement s (d + 1) (hr.mono (Nat.le_succ d)) (hr'.mono (Nat.le_succ d)) hbody
      exact ⟨rfl, rfl⟩
    | _ => simp [Statement.rows] at h
  | .whileDo c s, d => by
    intro s' r r' hr hr' h
    cases s' with
    | whileDo c' t =>
      simp only [Statement.rows, List.cons_append, List.append_assoc, List.cons.injEq,
        true_and] at h
      obtain ⟨rfl, hbody⟩ :=
        unique_condition c (d + 1) (below_statement s _ _) (below_statement t _ _) h
      obtain ⟨rfl, rfl⟩ :=
        unique_statement s (d + 1) (hr.mono (Nat.le_succ d)) (hr'.mono (Nat.le_succ d)) hbody
      exact ⟨rfl, rfl⟩
    | _ => simp [Statement.rows] at h
  | .print e, d => by
    intro s' r r' hr hr' h
    cases s' with
    | print e' =>
      obtain ⟨rfl, rfl⟩ :=
        unique_expr e (d + 1) (hr.mono (Nat.le_succ d)) (hr'.mono (Nat.le_succ d))
          (List.cons.inj h).2
      exact ⟨rfl, rfl⟩
    | _ => simp [Statement.rows] at h

theorem unique_body :
    ∀ (ss : List Statement) (d : Nat) {ss' : List Statement} {r r' : List Row}, Below d r →
    Below d r' → Statement.rows.bodyRows (d + 1) ss ++ r =
      Statement.rows.bodyRows (d + 1) ss' ++ r' → ss = ss' ∧ r = r'
  | [], _, [], _, _, _, _, h => ⟨rfl, h⟩
  | [], d, s :: ss', r, r', hr, _, h => by
    rw [Statement.rows.bodyRows, Statement.rows.bodyRows, List.append_assoc, List.nil_append] at h
    exact absurd (h ▸ hr) not_below_statement
  | s :: ss, d, [], r, r', _, hr', h => by
    rw [Statement.rows.bodyRows, Statement.rows.bodyRows, List.append_assoc, List.nil_append] at h
    exact absurd (h ▸ hr') not_below_statement
  | s :: ss, d, s' :: ss', r, r', hr, hr', h => by
    rw [Statement.rows.bodyRows, Statement.rows.bodyRows, List.append_assoc, List.append_assoc] at h
    obtain ⟨rfl, hrest⟩ := unique_statement s (d + 1) (below_body ss hr) (below_body ss' hr') h
    obtain ⟨rfl, rfl⟩ := unique_body ss d hr hr' hrest
    exact ⟨rfl, rfl⟩

end

/-! ## reading blocks -/

/-- the rows do not go on with a list that has the tag -/
def Without (d : Nat) (tag : String) (rs : List Row) : Prop :=
  ∀ empty rest, rs ≠ headRow d tag empty :: rest

section Sections

variable {α : Type} {d : Nat} {tag tag' : String} {item : α → Value} {r r' : List Row}

theorem Without.section (htag : tag' ≠ tag) (h : Without d tag r) (xs : Option (List α)) :
    Without d tag (sectionRows d tag' item xs ++ r) := by
  cases xs with
  | none => exact h
  | some xs =>
    intro empty rest hrows
    exact htag (tag_of_headRow (List.cons.inj hrows).1)

theorem below_section (xs : Option (List α)) (h : Below d r) :
    Below d (sectionRows d tag item xs ++ r) := by
  cases xs with
  | none => exact h
  | some xs => exact below_headRow

theorem unique_items (hitem : Function.Injective item) {xs ys : List α} (hr : Below d r)
    (hr' : Below d r')
    (h : (xs.map fun x => (d + 1, item x)) ++ r = (ys.map fun y => (d + 1, item y)) ++ r') :
    xs = ys ∧ r = r' := by
  induction xs generalizing ys with
  | nil =>
    cases ys with
    | nil => exact ⟨rfl, h⟩
    | cons y ys =>
      subst h
      exact absurd (below_cons.1 hr) (Nat.not_succ_le_self d)
  | cons x xs ih =>
    cases ys with
    | nil =>
      subst h
      exact absurd (below_cons.1 hr') (Nat.not_succ_le_self d)
    | cons y ys =>
      obtain ⟨hfirst, hrest⟩ := List.cons.inj h
      obtain ⟨rfl, rfl⟩ := ih hrest
      rw [hitem (Prod.mk.inj hfirst).2]
      exact ⟨rfl, rfl⟩

/-- a part that declares names is told from its absence by its tag -/
theorem unique_section (hitem : Function.Injective item) {xs ys : Option (List α)} (hr : Below d r)
    (hr' : Below d r') (hnot : Without d tag r) (hnot' : Without d tag r')
    (h : sectionRows d tag item xs ++ r = sectionRows d tag item ys ++ r') : xs = ys ∧ r = r' := by
  cases xs with
  | none =>
    cases ys with
    | none => exact ⟨rfl, h⟩
    | some ys => exact absurd h (hnot _ _)
  | some xs =>
    cases ys with
    | none => exact absurd h.symm (hnot' _ _)
    | some ys =>
      obtain ⟨rfl, rfl⟩ := unique_items hitem hr hr' (List.cons.inj h).2
      exact ⟨rfl, rfl⟩

end Sections

theorem defineValue_injective : Function.Injective defineValue := by
  rintro ⟨x, n⟩ ⟨y, m⟩ h
  simp only [defineValue, Value.tuple.injEq, List.cons.injEq, Value.str.injEq, Value.int.injEq,
    Int.natCast_inj, true_and, and_true] at h
  rw [h.1, h.2]

theorem nameValue_injective : Function.Injective nameValue := by
  intro x y h
  simpa [nameValue] using h

/-- a statement is none of the parts that come before it in a block -/
theorem without_statement {tag : String} (htag : tag ∉ ["SET", "BEGIN", "IF", "WHILE", "PRINT"])
    (s : Statement) (d : Nat) (r : List Row) : Without d tag (s.rows d ++ r) := by
  have hword : ∀ {w : String} {empty : Bool}, w ∈ ["SET", "BEGIN", "IF", "WHILE", "PRINT"] →
      (d, .str w) ≠ headRow d tag empty := fun hw h => htag ((word_eq_headRow.1 h).2.2 ▸ hw)
  intro empty rest h
  cases s with
  | assign x e | ifThen c s | whileDo c s | print e => exact hword (by decide) (List.cons.inj h).1
  | call q => exact tuple_ne_headRow (List.cons.inj h).1
  | block ss => exact htag (tag_of_headRow (List.cons.inj h).1 ▸ by decide)

section Procedures

variable {d : Nat} {procs procs' : List (String × Block)} {r r' : List Row}

theorem below_procs (rs : List Row) (h : Below d r) : Below d (procsRows d rs ++ r) := by
  cases rs with
  | nil => exact h
  | cons x rs => exact below_cons.2 le_rfl

theorem without_procs {tag : String} (htag : tag ≠ "PROCEDURES") (h : Without d tag r)
    (rs : List Row) : Without d tag (procsRows d rs ++ r) := by
  cases rs with
  | nil => exact h
  | cons x rs =>
    intro empty rest hrows
    exact htag (word_eq_headRow.1 (List.cons.inj hrows).1).2.2

/-- the procedure part is told from its absence by its tag -/
theorem unique_procsRows (hnot : Without d "PROCEDURES" r) (hnot' : Without d "PROCEDURES" r')
    (hprocs : Block.procRows (d + 1) procs ++ r = Block.procRows (d + 1) procs' ++ r' →
      procs = procs' ∧ r = r')
    (h : procsRows d (Block.procRows (d + 1) procs) ++ r =
      procsRows d (Block.procRows (d + 1) procs') ++ r') :
    procs = procs' ∧ r = r' := by
  cases procs with
  | nil =>
    cases procs' with
    | nil => exact ⟨rfl, h⟩
    | cons p' procs' => exact absurd h (hnot false _)
  | cons p procs =>
    cases procs' with
    | nil => exact absurd h.symm (hnot' false _)
    | cons p' procs' => exact hprocs (List.cons.inj h).2

theorem below_procRows (procs : List (String × Block)) (h : Below d r) :
    Below (d + 1) (Block.procRows (d + 1) procs ++ r) := by
  cases procs with
  | nil => exact h.mono (Nat.le_succ d)
  | cons p procs => exact below_cons.2 le_rfl

end Procedures

mutual

theorem unique_block : ∀ (b : Block) (d : Nat), Unique Block.rows d b
  | .mk consts vars procs body, d => by
    rintro ⟨consts', vars', procs', body'⟩ r r' hr hr' h
    simp only [Block.rows, List.cons_append, List.append_assoc, List.cons.injEq, true_and] at h
    -- the parts are read from the front; what follows a part begins with another tag, whichever
    -- parts are there
    have hbelow := fun (s : Statement) (ps : List Row) (r : List Row) =>
      below_procs ps (below_statement s (d + 1) r)
    obtain ⟨rfl, hvars⟩ :=
      unique_section defineValue_injective (below_section vars (hbelow body _ r))
        (below_section vars' (hbelow body' _ r'))
        (.section (by decide)
          (without_procs (by decide) (without_statement (by decide) body _ r) _) vars)
        (.section (by decide)
          (without_procs (by decide) (without_statement (by decide) body' _ r') _) vars') h
    obtain ⟨rfl, hprocs⟩ := unique_section nameValue_injective (hbelow body _ r) (hbelow body' _ r')
      (without_procs (by decide) (without_statement (by decide) body _ r) _)
      (without_procs (by decide) (without_statement (by decide) body' _ r') _) hvars
    obtain ⟨rfl, hbody⟩ := unique_procsRows (without_statement (by decide) body _ r)
      (without_statement (by decide) body' _ r')
      (unique_procs procs (d + 1) (below_statement body _ r) (below_statement body' _ r')) hprocs
    obtain ⟨rfl, rfl⟩ :=
      unique_statement body (d + 1) (hr.mono (Nat.le_succ d)) (hr'.mono (Nat.le_succ d)) hbody
    exact ⟨rfl, rfl⟩

theorem unique_procs : ∀ (procs : List (String × Block)) (d : Nat) {procs' : List (String × Block)}
    {r r' : List Row}, Below d r → Below d r' →
      Block.procRows (d + 1) procs ++ r = Block.procRows (d + 1) procs' ++ r' →
      procs = procs' ∧ r = r'
  | [], _, [], _, _, _, _, h => ⟨rfl, h⟩
  | [], d, (q, b) :: rest', r, _, hr, _, h => by
    subst h
    exact absurd (below_cons.1 hr) (Nat.not_succ_le_self d)
  | (q, b) :: rest, d, [], _, r', _, hr', h => by
    subst h
    exact absurd (below_cons.1 hr') (Nat.not_succ_le_self d)
  | (q, b) :: rest, d, (q', b') :: rest', r, r', hr, hr', h => by
    simp only [Block.procRows, List.cons_append, List.append_assoc, List.cons.injEq, Prod.mk.injEq,
      Value.str.injEq, true_and] at h
    obtain ⟨rfl, hblock⟩ := h
    obtain ⟨rfl, hrest⟩ := unique_block b (d + 2) ((below_procRows rest hr).mono (Nat.le_succ _))
      ((below_procRows rest' hr').mono (Nat.le_succ _)) hblock
    obtain ⟨rfl, rfl⟩ := unique_procs rest d hr hr' hrest
    exact ⟨rfl, rfl⟩

end

/-- **The rows of a program tell the program.** -/
theorem program_rows_injective (d : Nat) : Function.Injective (Program.rows d) := by
  rintro ⟨b⟩ ⟨b'⟩ h
  have hrows : b.rows (d + 1) ++ [] = b'.rows (d + 1) ++ [] := by
    rw [List.append_nil, List.append_nil]
    exact (List.cons.inj h).2
  rw [(unique_block b (d + 1) below_nil below_nil hrows).1]

/-! ## outlines of parsed programs -/

theorem outlined_program {source : String} {p : Program} (hparse : (parseText source).1 = .ok p)
    (d : Nat) : Outlined p.toValue d (p.rows d) := by
  have hnames : Names Wordlike p.block.symbols := by
    intro x hx
    exact .ofIdentifier ((shaped_of_parse hparse).names x (List.mem_append_left _ hx))
  exact outlined_tuple (by decide) ⟨_, List.mem_cons_self, isInner_block p.block⟩
    (.single (outlined_block p.block (d + 1) hnames))

theorem render_program {source : String} {p : Program} (hparse : (parseText source).1 = .ok p)
    (d : Nat) : render p.toValue d = (.ok (), String.ofList (chars (p.rows d))) := by
  have hprint := (outlined_program hparse d).exec_eq ""
  rw [String.empty_append] at hprint
  exact hprint

/-- **The outline of a parsed program determines it.**  It is printed without a fault, and programs
with the same outline are the same. -/
theorem outline_determines_program {source source' : String} {p p' : Program}
    (hparse : (parseText source).1 = .ok p) (hparse' : (parseText source').1 = .ok p') (d : Nat) :
    (render p.toValue d).1 = .ok () ∧
    ((render p.toValue d).2 = (render p'.toValue d).2 → p = p') := by
  rw [render_program hparse, render_program hparse']
  refine ⟨rfl, fun htext => program_rows_injective d ?_⟩
  have hchars : chars (p.rows d) = chars (p'.rows d) := by
    simpa using congrArg String.toList htext
  exact chars_inj (outlined_program hparse d).legible (outlined_program hparse' d).legible hchars

/-- prints a sum; the sign before it stands on a row of its own -/
def printSum (sign : Option AddOp) : Program :=
  ⟨.mk none none [] (.print (.mk sign (.mk (.number 1) []) [(.plus, .mk (.number 2) [])]))⟩

/-- a sign that changes no value shows in the outline -/
theorem signed_sum_outline_differs :
    (parseText "! + 1 + 2 .").1 = .ok (printSum (some .plus)) ∧
    (parseText "! 1 + 2 .").1 = .ok (printSum none) ∧
    (render (printSum (some .plus)).toValue 0).1 = .ok () ∧
      (render (printSum (some .plus)).toValue 0).2 ≠ (render (printSum none).toValue 0).2 := by
  have hparse : (parseText "! + 1 + 2 .").1 = .ok (printSum (some .plus)) := by
    with_unfolding_all rfl
  have hparse' : (parseText "! 1 + 2 .").1 = .ok (printSum none) := by with_unfolding_all rfl
  obtain ⟨hok, hsame⟩ := outline_determines_program hparse hparse' 0
  refine ⟨hparse, hparse', hok, fun htext => ?_⟩
  cases hsame htext

end Outline

end Pl0Kit
