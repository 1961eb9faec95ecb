import Pl0Kit.Proofs.ForthVisits

/-!
# Names that a Forth translator knows

There is one table of names, and leaving a procedure takes nothing out of it.  So after a procedure
a name is what it was last declared as in the procedure's block, at any depth, or else what it was
before.  The variables that are saved around a recursive call are those of the table: all that the
program has declared so far.
-/

namespace Pl0Kit.Forth

open Act

def found (t : Translator) (x : String) : Option (Value × Value) :=
  (exec (lookup (.str x)) t).1.toOption

/-- the kind and value that a block declares last for a name, in its own declarations or in a
procedure -/
def latest (b : Block) (x : String) : Option (Value × Value) :=
  ((declarationsOf b).reverse.lookup x).map (Entry.pair x)

variable {L : Lexicon} {t : Translator}

theorem found_eq (h : t.names = L.table) (x : String) :
    found t x = (L.find? x).map (Entry.pair x) := by
  rw [found, exec_lookup_table h]
  cases L.find? x with
  | none => rfl
  | some e => rfl

/-- the names of a block are found first -/
theorem find?_addBlock (h : t.names = L.table) (b : Block) (x : String) :
    ((L.addBlock b).find? x).map (Entry.pair x) = (latest b x).or (found t x) := by
  rw [Lexicon.addBlock_eq, Lexicon.find?_declareAll, Option.map_or, found_eq h, latest]

theorem pair_eq_variable {x : String} {e : Entry} :
    e.pair x = (variableKind, .str x) ↔ e = .var := by
  cases e with
  | const n => simp [Entry.pair, constantKind, variableKind]
  | var => simp [Entry.pair]

/-- the variables of a translator that knows the names of a block -/
theorem mem_vars_addBlock (h : t.names = L.table) (b : Block) (x : String) :
    x ∈ (L.addBlock b).vars ↔ (latest b x).or (found t x) = some (variableKind, .str x) := by
  rw [Lexicon.mem_vars, ← find?_addBlock h, Option.map_eq_some_iff]
  constructor
  · intro hx
    exact ⟨.var, hx, rfl⟩
  · rintro ⟨e, he, hpair⟩
    rw [he, pair_eq_variable.1 hpair]

/-- **Declarations outlast procedures.**  After a procedure, a name is found as its block has
declared it last, at any depth, and as before if it does not declare it.  So leaving it restores the
table exactly if it declares every name as what it is already.  In its body, the variables are the
names that are variables by the same rule. -/
theorem declarations_outlast_procedures {p : Program} {home : Home} {q : String} {b : Block}
    {t : Translator} (h : Comes p ((q, b) :: home) t) :
    (∀ v t', exec (rules.run (procedureValue q b)) t = (.ok v, t') →
      (∀ x, found t' x = (latest b x).or (found t x)) ∧
      ((∀ x, found t' x = found t x) ↔ ∀ x r, latest b x = some r → found t x = some r)) ∧
    ∀ s u, InBody p ((q, b) :: home) t s u → ∃ xs : List String, u.variableNames = xs.map .str ∧
      ∀ x, x ∈ xs ↔ (latest b x).or (found t x) = some (variableKind, .str x) := by
  obtain ⟨L, hat⟩ := h.at
  have hnames : t.names = L.table := hat.names
  refine ⟨fun v t' hrun => ?_, fun s u hbody => ?_⟩
  · have hafter : t'.names = (L.addBlock b).table := by
      obtain ⟨_, t₁, hdefine, rfl⟩ := exec_procedure hrun
      obtain ⟨es, -, rfl⟩ := exec_define b (hat.enter q) hdefine
      rfl
    have hfound : ∀ x, found t' x = (latest b x).or (found t x) := fun x => by
      rw [found_eq hafter, find?_addBlock hnames]
    refine ⟨hfound, ?_⟩
    simp only [hfound]
    constructor
    · intro hsame x r hr
      have hx := hsame x
      rw [hr, Option.some_or] at hx
      exact hx.symm
    · intro hknown x
      cases hr : latest b x with
      | none => rfl
      | some r => exact (hknown x r hr).symm
  · obtain ⟨_, _, _, _, _, _, -, -, -, rfl⟩ := hbody.emits hat
    refine ⟨(L.addBlock b).vars, ?_, mem_vars_addBlock hnames b⟩
    exact Lexicon.variableNames_eq rfl

/-- a procedure with a variable, and in it one with a constant -/
def outerBlock : Block :=
  .mk none (some ["g"])
    [("r", .mk (some [("c", 3)]) none [] (.print (.mk none (.mk (.name "c") []) [])))]
    (.call "r")

def constInside : Program :=
  ⟨.mk (some [("c", 1)]) none [("p", outerBlock)] (.print (.mk none (.mk (.name "c") []) []))⟩

theorem constInside_outlasts :
    (parseText "CONST c = 1; PROCEDURE p; VAR g; PROCEDURE r; CONST c = 3; ! c; CALL r; ! c .").1 =
        .ok constInside ∧
      ∃ t v t', Comes constInside [("p", outerBlock)] t ∧
        exec (rules.run (procedureValue "p" outerBlock)) t = (.ok v, t') ∧
        found t "c" = some (constantKind, .int 1) ∧ found t' "c" = some (constantKind, .int 3) ∧
        found t' "g" = some (variableKind, .str "g") ∧ ∃ x, found t' x ≠ found t x := by
  have hcomes : Comes constInside [("p", outerBlock)]
      { names := [(.str "c", .tuple [constantKind, .int 1])] } :=
    .first .program rfl (by with_unfolding_all rfl)
  obtain ⟨v, t', hrun⟩ : ∃ v t', exec (rules.run (procedureValue "p" outerBlock))
      { names := [(.str "c", .tuple [constantKind, .int 1])] } = (.ok v, t') :=
        ⟨_, _, by with_unfolding_all rfl⟩
  obtain ⟨hafter, hsame⟩ := (declarations_outlast_procedures hcomes).1 v t' hrun
  have hbefore : found { names := [(.str "c", .tuple [constantKind, .int 1])] } "c" =
      some (constantKind, .int 1) := by with_unfolding_all rfl
  refine ⟨by with_unfolding_all rfl, _, v, t', hcomes, hrun, hbefore, ?_, ?_, ?_⟩
  · rw [hafter]
    rfl
  · rw [hafter]
    rfl
  · by_contra hnone
    have hc := hsame.1 (not_exists_not.1 hnone) "c" (constantKind, .int 3) rfl
    rw [hbefore] at hc
    cases hc

/-- a constant that a procedure declares as another number -/
def constTwice : Program :=
  ⟨.mk (some [("c", 1)]) none
    [("p", .mk (some [("c", 2)]) none [] (.print (.mk none (.mk (.name "c") []) [])))]
    (.print (.mk none (.mk (.name "c") []) []))⟩

def callItself : Program :=
  ⟨.mk none (some ["g"]) [("p", .mk none none [] (.call "p"))] (.call "p")⟩

/-- **Leaving a procedure does not restore the table, and a body has other variables than its
own.**  The constant `c` is 1 before the procedure and 2 after it; the variable `g` of the program
is saved in a procedure that declares none. -/
theorem table_not_restored :
    (parseText "CONST c = 1; PROCEDURE p; CONST c = 2; ! c; ! c .").1 = .ok constTwice ∧
      translate constTwice.toValue {} = (.ok .none, ": p  2  .  ;\n: run  2  .  ;\nrun\n\n",
        { names := [(.str "c", .tuple [constantKind, .int 2])] }) ∧
      (∃ b t v t', Comes constTwice [("p", b)] t ∧ exec (rules.run (procedureValue "p" b)) t =
        (.ok v, t') ∧
        found t "c" = some (constantKind, .int 1) ∧ found t' "c" = some (constantKind, .int 2)) ∧
      (parseText "VAR g; PROCEDURE p; CALL p; CALL p .").1 = .ok callItself ∧
      (∃ b t u, Comes callItself [("p", b)] t ∧ InBody callItself [("p", b)] t (.call "p") u ∧
        u.variableNames = [.str "g"] ∧ b.names = []) := by
  refine ⟨by with_unfolding_all rfl, by with_unfolding_all rfl,
    ⟨_, _, _, _, .first .program rfl (by with_unfolding_all rfl),
      by with_unfolding_all rfl, by with_unfolding_all rfl, by with_unfolding_all rfl⟩,
    by with_unfolding_all rfl,
    ⟨_, _, _, .first .program rfl (by with_unfolding_all rfl),
      ⟨none, none, [], .call "p", _, _, rfl, by with_unfolding_all rfl, .here⟩,
      by with_unfolding_all rfl, rfl⟩⟩

end Pl0Kit.Forth
