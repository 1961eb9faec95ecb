import Pl0Kit.Proofs.ForthText

/-!
# What is emitted for a program

The translator keeps one table of names for the whole program (`Lexicon`) and the procedures whose
definitions it is in.  Between two parts of a statement this is all that counts of it (`At`), so
what it emits for a part is given by the part and its `Context`:

* `ExprText`, `ConditionText`, `StatementText`   emissions for the parts of a statement;
* `DefinitionText`   emissions for a block: its variables, its procedures, and the definition of its
                     body;
* `Emits c p Code`   from a translator at `c`, the visit `p` emits some `Code` and changes nothing
                     else;
* `emitted_program`  a program that is translated.
-/

namespace Pl0Kit

/-! ## ordered tables -/

namespace Ordered

variable {α : Type}

theorem get?_cons (k x : String) (v : α) (d : Ordered String α) :
    get? ((k, v) :: d) x = if x = k then some v else d.get? x := by
  by_cases hx : x = k
  · simp [get?, hx]
  · simp [get?, hx, List.lookup_cons, beq_false_of_ne hx]

theorem get?_put (d : Ordered String α) (k x : String) (v : α) :
    (d.put k v).get? x = if x = k then some v else d.get? x := by
  induction d with
  | nil => exact get?_cons k x v []
  | cons e d ih =>
    obtain ⟨k', v'⟩ := e
    by_cases hk : k = k'
    · subst hk
      by_cases hx : x = k <;> simp [put, get?_cons, hx]
    · by_cases hx : x = k
      · subst hx
        simp [put, get?_cons, hk, ih]
      · simp [put, get?_cons, hk, hx, ih]

theorem keys_put (d : Ordered String α) (k : String) (v : α) :
    (d.put k v).keys = addNew d.keys k := by
  induction d with
  | nil => rfl
  | cons e d ih =>
    obtain ⟨k', v'⟩ := e
    simp only [keys, addNew] at ih
    by_cases hk : k = k'
    · simp [put, keys, addNew, hk]
    · by_cases hd : (List.map Prod.fst d).contains k = true <;> simp_all [put, keys, addNew]

theorem mem_iff_get? {d : Ordered String α} (h : d.keys.Nodup) {x : String} {v : α} :
    (x, v) ∈ d ↔ d.get? x = some v := by
  induction d with
  | nil => simp [get?]
  | cons e d ih =>
    obtain ⟨k, w⟩ := e
    obtain ⟨hk, hnd⟩ := List.nodup_cons.1 h
    by_cases hx : x = k
    · subst hx
      have hout : (x, v) ∉ d := fun hmem => hk (List.mem_map.2 ⟨_, hmem, rfl⟩)
      simp [get?_cons, hout, eq_comm]
    · simp [get?_cons, hx, ih hnd]

end Ordered

namespace Forth

open Act Generator Text

/-! ## declared names -/

/-- what a name is declared as -/
inductive Entry where
  | const (n : Nat)
  | var
  deriving DecidableEq, Repr

/-- the kind and the value of a name -/
def Entry.pair (x : String) : Entry → Value × Value
  | .const n => (constantKind, .int n)
  | .var => (variableKind, .str x)

def Entry.value (x : String) (e : Entry) : Value := .tuple [(e.pair x).1, (e.pair x).2]

/-- the names declared so far, each once, in the order of their first declarations -/
structure Lexicon where
  entries : Ordered String Entry
  nodup : entries.keys.Nodup

/-- the constants and variables that a block declares itself -/
def ownDeclarations (consts : Option (List (String × Nat))) (vars : Option (List String)) :
    List (String × Entry) :=
  (consts.getD []).map (fun d => (d.1, .const d.2)) ++ (vars.getD []).map (·, .var)

mutual

/-- all that a block declares, its procedures' declarations included -/
def declarationsOf : Block → List (String × Entry)
  | .mk consts vars procs _ => ownDeclarations consts vars ++ procDeclarations procs

def procDeclarations : List (String × Block) → List (String × Entry)
  | [] => []
  | (_, b) :: rest => declarationsOf b ++ procDeclarations rest

end

namespace Lexicon

def empty : Lexicon := ⟨[], List.nodup_nil⟩

def find? (L : Lexicon) (x : String) : Option Entry := L.entries.get? x

def declare (L : Lexicon) (x : String) (e : Entry) : Lexicon where
  entries := L.entries.put x e
  nodup := by
    rw [Ordered.keys_put]
    exact nodup_foldl_addNew [x] L.nodup

/-- the names that are variables -/
def vars (L : Lexicon) : List String :=
  L.entries.filterMap fun d => if d.2 = .var then some d.1 else none

/-- the table of names of a translator -/
def table (L : Lexicon) : Table := L.entries.map fun d => (.str d.1, d.2.value d.1)

@[simp] theorem find?_declare (L : Lexicon) (x y : String) (e : Entry) :
    (L.declare y e).find? x = if x = y then some e else L.find? x :=
  Ordered.get?_put L.entries y x e

theorem mem_vars {L : Lexicon} {x : String} : x ∈ L.vars ↔ L.find? x = some .var := by
  rw [find?, ← Ordered.mem_iff_get? L.nodup, vars, List.mem_filterMap]
  constructor
  · rintro ⟨⟨y, e⟩, hmem, hy⟩
    by_cases he : e = .var
    · subst he
      cases hy
      exact hmem
    · simp [he] at hy
  · exact fun h => ⟨_, h, rfl⟩

theorem table_declare (L : Lexicon) (x : String) (e : Entry) :
    (L.declare x e).table = L.table.put (.str x) (e.value x) := by
  show (L.entries.put x e).map (fun d => (Value.str d.1, d.2.value d.1)) =
    L.table.put (.str x) (e.value x)
  rw [table]
  induction L.entries with
  | nil => rfl
  | cons d es ih =>
    obtain ⟨y, d⟩ := d
    by_cases hx : x = y
    · subst hx
      simp [Ordered.put, Table.put, Value.same]
    · simp only [Ordered.put, beq_iff_eq, hx, if_false, List.map_cons, Table.put]
      rw [ih, if_neg fun h => hx (Value.str.inj (Value.same_str.1 h)).symm]

theorem get?_table (L : Lexicon) (x : String) :
    L.table.get? (.str x) = (L.find? x).map (Entry.value x) := by
  rw [table, find?]
  induction L.entries with
  | nil => rfl
  | cons d es ih =>
    obtain ⟨y, d⟩ := d
    simp only [List.map_cons, Table.get?_cons, Value.same_str, Value.str.injEq, Ordered.get?_cons]
    by_cases hy : y = x
    · subst hy
      simp
    · have hx : ¬ x = y := fun h => hy h.symm
      simpa [hx, hy] using ih

/-- the variables that a translator has in its table -/
theorem variableNames_eq {L : Lexicon} {t : Translator} (h : t.names = L.table) :
    t.variableNames = L.vars.map .str := by
  rw [Translator.variableNames, h, table, vars]
  induction L.entries with
  | nil => rfl
  | cons d es ih =>
    obtain ⟨y, d⟩ := d
    cases d with
    | const n => exact ih
    | var => exact congrArg (Value.str y :: ·) ih

/-! ## declarations of a block -/

/-- one declaration after another -/
def declareAll (L : Lexicon) (ds : List (String × Entry)) : Lexicon :=
  ds.foldl (fun L d => L.declare d.1 d.2) L

/-- a name is what it was declared as last -/
theorem find?_declareAll (L : Lexicon) (ds : List (String × Entry)) (x : String) :
    (L.declareAll ds).find? x = (ds.reverse.lookup x).or (L.find? x) := by
  induction ds generalizing L with
  | nil => rfl
  | cons d ds ih =>
    obtain ⟨y, e⟩ := d
    have hstep : (L.declare y e).find? x = ([(y, e)].lookup x).or (L.find? x) := by
      by_cases hx : x = y
      · simp [hx]
      · simp [List.lookup_cons, hx, beq_false_of_ne hx]
    rw [List.reverse_cons, List.lookup_append, Option.or_assoc, ← hstep]
    exact ih (L.declare y e)

def define (L : Lexicon) (ds : List (String × Nat)) : Lexicon :=
  ds.foldl (fun L d => L.declare d.1 (.const d.2)) L

def allot (L : Lexicon) (xs : List String) : Lexicon := xs.foldl (fun L x => L.declare x .var) L

/-- after the constants and variables of a block -/
def enter (L : Lexicon) (consts : Option (List (String × Nat))) (vars : Option (List String)) :
    Lexicon :=
  (L.define (consts.getD [])).allot (vars.getD [])

mutual

/-- after all that a block declares, its procedures' declarations included -/
def addBlock (L : Lexicon) : Block → Lexicon
  | .mk consts vars procs _ => addProcs (L.enter consts vars) procs

def addProcs (L : Lexicon) : List (String × Block) → Lexicon
  | [] => L
  | (_, b) :: rest => addProcs (addBlock L b) rest

end

theorem declareAll_append (L : Lexicon) (as bs : List (String × Entry)) :
    L.declareAll (as ++ bs) = (L.declareAll as).declareAll bs := List.foldl_append

theorem enter_eq (L : Lexicon) (consts : Option (List (String × Nat)))
    (vars : Option (List String)) :
    L.enter consts vars = L.declareAll (ownDeclarations consts vars) := by
  simp only [enter, define, allot, ownDeclarations, declareAll, List.foldl_append, List.foldl_map]

mutual

theorem addBlock_eq (L : Lexicon) : ∀ b : Block, L.addBlock b = L.declareAll (declarationsOf b)
  | .mk consts vars procs _ => by
    rw [addBlock, declarationsOf, declareAll_append, ← enter_eq, addProcs_eq _ procs]

theorem addProcs_eq (L : Lexicon) : ∀ procs : List (String × Block),
    L.addProcs procs = L.declareAll (procDeclarations procs)
  | [] => rfl
  | (_, b) :: rest => by
    rw [addProcs, procDeclarations, declareAll_append, addBlock_eq L b, addProcs_eq _ rest]

end

theorem table_define (L : Lexicon) (ds : List (String × Nat)) :
    (L.define ds).table = defineNames L.table ds := by
  induction ds generalizing L with
  | nil => rfl
  | cons d ds ih => exact (ih (L.declare d.1 (.const d.2))).trans (by rw [table_declare]; rfl)

theorem table_allot (L : Lexicon) (xs : List String) :
    (L.allot xs).table = declareNames L.table xs := by
  induction xs generalizing L with
  | nil => rfl
  | cons x xs ih => exact (ih (L.declare x .var)).trans (by rw [table_declare]; rfl)

end Lexicon

/-! ## emissions of the parts of a statement -/

/-- the procedures around a part, the innermost first, and the names declared before it -/
structure Context where
  path : List String
  names : Lexicon

def addWord : AddOp → String
  | .plus => "+"
  | .minus => "-"

def mulWord : MulOp → String
  | .times => "*"
  | .divide => "/"

def relWord : RelOp → String
  | .lt => "<" | .lte => "<=" | .gt => ">" | .gte => ">=" | .e => "=" | .ne => "<>"

/-- a constant is put as a number, a variable with the access to it -/
inductive AccessText (L : Lexicon) (x access : String) : List Emission → Prop
  | const {n : Nat} : L.find? x = some (.const n) →
      AccessText L x access [.put (" " ++ intText n ++ " ")]
  | var : L.find? x = some .var → AccessText L x access ([" ", x, " ", access, " "].map .put)

mutual

inductive ExprText (L : Lexicon) : Expr → List Emission → Prop
  | plain {sign : Option AddOp} {first : Term} {rest : List (AddOp × Term)}
      {es ds : List Emission} : sign ≠ some .minus → TermText L first es → TermsText L rest ds →
        ExprText L (.mk sign first rest) (es ++ ds)
  | literal {n : Nat} {rest : List (MulOp × Factor)} {es : List Emission} : FactorsText L rest es →
      ExprText L (.mk (some .minus) (.mk (.number n) rest) []) (.say ("-" ++ intText n) :: es)
  | negated {first : Factor} {rest : List (MulOp × Factor)} {es : List Emission} :
      (∀ n, first ≠ .number n) → TermText L (.mk first rest) es →
        ExprText L (.mk (some .minus) (.mk first rest) []) (es ++ [.say "-1 *"])

inductive TermsText (L : Lexicon) : List (AddOp × Term) → List Emission → Prop
  | nil : TermsText L [] []
  | cons {op : AddOp} {x : Term} {rest : List (AddOp × Term)} {es ds : List Emission} :
      TermText L x es → TermsText L rest ds →
        TermsText L ((op, x) :: rest) (es ++ .say (addWord op) :: ds)

inductive TermText (L : Lexicon) : Term → List Emission → Prop
  | mk {first : Factor} {rest : List (MulOp × Factor)} {es ds : List Emission} :
      FactorText L first es → FactorsText L rest ds → TermText L (.mk first rest) (es ++ ds)

inductive FactorsText (L : Lexicon) : List (MulOp × Factor) → List Emission → Prop
  | nil : FactorsText L [] []
  | cons {op : MulOp} {x : Factor} {rest : List (MulOp × Factor)} {es ds : List Emission} :
      FactorText L x es → FactorsText L rest ds →
        FactorsText L ((op, x) :: rest) (es ++ .say (mulWord op) :: ds)

inductive FactorText (L : Lexicon) : Factor → List Emission → Prop
  | name {x : String} {es : List Emission} : AccessText L x "@" es → FactorText L (.name x) es
  | number {n : Nat} : FactorText L (.number n) [.put " ", .say (intText n)]
  | paren {e : Expr} {es : List Emission} : ExprText L e es → FactorText L (.paren e) es

end

inductive ConditionText (L : Lexicon) : Condition → List Emission → Prop
  | odd {e : Expr} {es : List Emission} :
      ExprText L e es → ConditionText L (.odd e) (es ++ [.say "2 mod 1 ="])
  | compare {l r : Expr} {op : RelOp} {es ds : List Emission} : ExprText L l es → ExprText L r ds →
      ConditionText L (.compare l op r) (es ++ (ds ++ [.put (" " ++ relWord op ++ " ")]))

/-- a call from inside the procedure that is called, with variables saved on the stack meanwhile -/
def recursion (xs : List String) : List Emission :=
  xs.map (fun x => .put (x ++ " @ ")) ++ .say " recurse " ::
    xs.reverse.map (fun x => .put (x ++ " ! "))

def callText (c : Context) (q : String) : List Emission :=
  if q ∈ c.path then recursion c.names.vars else [.say q]

mutual

inductive StatementText (c : Context) : Statement → List Emission → Prop
  | assign {x : String} {e : Expr} {es ds : List Emission} : ExprText c.names e es →
      AccessText c.names x "!" ds → StatementText c (.assign x e) (es ++ ds)
  | call {q : String} : StatementText c (.call q) (callText c q)
  | block {ss : List Statement} {es : List Emission} :
      StatementsText c ss es → StatementText c (.block ss) es
  | ifThen {test : Condition} {s : Statement} {es ds : List Emission} :
      ConditionText c.names test es → StatementText c s ds →
        StatementText c (.ifThen test s) (es ++ .put " if " :: (ds ++ [.put " then "]))
  | whileDo {test : Condition} {s : Statement} {es ds : List Emission} :
      ConditionText c.names test es → StatementText c s ds →
        StatementText c (.whileDo test s)
          (.say " begin " :: (es ++ .say " while " :: (ds ++ [.say " repeat "])))
  | print {e : Expr} {es : List Emission} :
      ExprText c.names e es → StatementText c (.print e) (es ++ [.say " . "])

inductive StatementsText (c : Context) : List Statement → List Emission → Prop
  | nil : StatementsText c [] []
  | cons {s : Statement} {ss : List Statement} {es ds : List Emission} :
      StatementText c s es → StatementsText c ss ds → StatementsText c (s :: ss) (es ++ ds)

end

/-! ## visits that emit -/

/-- a translator between two parts of a statement: its flags are back -/
structure At (c : Context) (t : Translator) : Prop where
  negate : t.negate = false
  access : t.access = "@"
  path : t.path = c.path.map .str
  names : t.names = c.names.table

theorem At.after {c : Context} {t : Translator} (h : At c t) (es : List Emission) :
    At c (t.after es) :=
  ⟨h.negate, h.access, h.path, h.names⟩

theorem At.positive {c : Context} {t : Translator} (h : At c t) :
    { t with negate := false } = t := by
  rw [← h.negate]

/-- a visit that emits some code and leaves all else as it is -/
def Emits {α : Type} (c : Context) (p : ForthM α) (Code : List Emission → Prop) : Prop :=
  ∀ ⦃t v t'⦄, At c t → exec p t = (.ok v, t') → ∃ es, Code es ∧ t' = t.after es

/-- emissions of one kind and then of another -/
def Followed (A B : List Emission → Prop) (es : List Emission) : Prop :=
  ∃ as bs, A as ∧ B bs ∧ as ++ bs = es

namespace Emits

variable {α β : Type} {c : Context} {p q : ForthM α} {f : α → ForthM β} {A B : List Emission → Prop}

theorem mono (h : Emits c p A) (hAB : ∀ es, A es → B es) : Emits c p B := by
  intro t v t' hat hp
  obtain ⟨es, hes, rfl⟩ := h hat hp
  exact ⟨es, hAB es hes, rfl⟩

theorem congr (h : Emits c q A) (heq : ∀ t, At c t → exec p t = exec q t) : Emits c p A := by
  intro t v t' hat hp
  rw [heq t hat] at hp
  exact h hat hp

theorem bind (h : Emits c p A) (hf : ∀ a, Emits c (f a) B) : Emits c (p >>= f) (Followed A B) := by
  intro t v t' hat hp
  obtain ⟨a, t₁, h₁, h₂⟩ := exec_bind_ok.1 hp
  obtain ⟨as, has, rfl⟩ := h hat h₁
  obtain ⟨bs, hbs, rfl⟩ := hf a (hat.after as) h₂
  exact ⟨as ++ bs, ⟨as, bs, has, hbs, rfl⟩, after_after _ _ _⟩

theorem emit (e : Emission) : Emits c (Forth.emit e) (· = [e]) := by
  intro t v t' _ h
  cases h
  exact ⟨[e], rfl, rfl⟩

theorem nothing (a : α) : Emits c (pure a) (· = []) := by
  intro t v t' _ h
  cases h
  exact ⟨[], rfl, (after_nil t).symm⟩

/-- a rule whose answer is not used -/
theorem rule (h : Emits c p A) (b : β) : Emits c (p >>= fun _ => pure b) A := by
  refine (h.bind fun _ => nothing b).mono ?_
  rintro _ ⟨as, _, has, rfl, rfl⟩
  rwa [List.append_nil]

end Emits

/-! ## expressions -/

/-- a name is looked up in the table -/
theorem exec_lookup_table {L : Lexicon} {t : Translator} (hnames : t.names = L.table) (x : String) :
    exec (lookup (.str x)) t =
      match L.find? x with
      | some e => (.ok (e.pair x), t)
      | none =>
        (.error (.notInScope ("name not found: " ++ x ++ ". scope is " ++ t.scopeText)), t) := by
  have hget := L.get?_table x
  rw [lookup, exec_then (exec_get t)]
  cases hx : L.find? x with
  | none =>
    rw [hx, Option.map_none, ← hnames] at hget
    simp only [hget]
    rfl
  | some e =>
    rw [hx, Option.map_some, ← hnames] at hget
    simp only [hget, Entry.value]
    rfl

theorem exec_access {L : Lexicon} {t t' : Translator} (hnames : t.names = L.table) {x : String}
    {v : Value} (h : exec (rules.run (nameValue x)) t = (.ok v, t')) :
    ∃ es, AccessText L x t.access es ∧ t' = t.after es := by
  rw [run_name, nameRule, value_spot, bind_assoc] at h
  obtain ⟨⟨k, w⟩, t₁, hlook, h⟩ := exec_bind_ok.1 h
  rw [exec_lookup_table hnames] at hlook
  cases hx : L.find? x with
  | none =>
    rw [hx] at hlook
    cases hlook
  | some e =>
    rw [hx] at hlook
    cases e with
    | const n =>
      cases hlook
      cases h
      exact ⟨_, .const hx, rfl⟩
    | var =>
      cases hlook
      cases h
      exact ⟨_, .var hx, by simp [Translator.after]⟩

variable {c : Context}

theorem emits_name (x : String) :
    Emits c (rules.run (nameValue x)) (FactorText c.names (.name x)) := by
  intro t v t' hat h
  obtain ⟨es, hes, rfl⟩ := exec_access hat.names h
  rw [hat.access] at hes
  exact ⟨es, .name hes, rfl⟩

theorem emits_number (n : Nat) :
    Emits c (rules.run (Factor.number n).toValue) (FactorText c.names (.number n)) := by
  intro t v t' hat h
  rw [run_number, numberRule, bind_assoc, exec_then (exec_get t), hat.negate] at h
  cases h
  exact ⟨_, .number, after_after t [.put " "] [.say (intText n)]⟩

/-- an operator of sums or products is said -/
theorem emits_operator {op w : String} (h : operators.lookup op = some w) :
    Emits c (do say (← wordFor operators (.str op))) (· = [.say w]) := by
  refine (Emits.emit (.say w)).congr fun t _ => ?_
  rw [wordFor, h]
  rfl

theorem lookup_addWord (op : AddOp) : operators.lookup op.word = some (addWord op) := by
  cases op <;> rfl

theorem lookup_mulWord (op : MulOp) : operators.lookup op.word = some (mulWord op) := by
  cases op <;> rfl

theorem lookup_relWord (op : RelOp) : relations.lookup op.word = some (relWord op) := by
  cases op <;> rfl

mutual

theorem emits_expr : ∀ e : Expr, Emits c (rules.run e.toValue) (ExprText c.names e)
  | .mk sign first rest => by
    rw [run_expr]
    refine Emits.rule ?_ _
    by_cases hsign : sign = some .minus
    · subst hsign
      obtain ⟨factor, more⟩ := first
      cases rest with
      | cons r rest =>
        intro t v t' _ h
        rw [Expr.tailValues, List.map_cons, List.map_cons, expressionRule_sum] at h
        cases h
      | nil =>
        rw [Expr.tailValues, List.map_singleton]
        by_cases hnumber : ∃ n, factor = .number n
        · -- the number takes the sign and gives the flag back
          obtain ⟨n, rfl⟩ := hnumber
          intro t v t' hat h
          rw [exec_minusNumber, ← List.map_singleton, exec_firstTerm, run_term, bind_assoc,
            exec_then (exec_negative n t), (hat.after _).positive, bind_assoc] at h
          obtain ⟨_, t₁, h₁, hnil⟩ := exec_bind_ok.1 h
          obtain ⟨ds, hds, rfl⟩ := emits_factors more (hat.after _) h₁
          cases hnil
          exact ⟨_, .literal hds, after_after _ _ _⟩
        · refine Emits.congr (q := do
            terms [rules.spot (Term.mk factor more).toValue]; say "-1 *") ?_
            fun t _ => exec_minusOther (fun n hn => hnumber ⟨n, hn⟩) more t
          refine (Emits.bind (A := TermText c.names (.mk factor more)) ?_ fun _ => .emit _).mono ?_
          · refine ((emits_term (.mk factor more)).rule ⟨⟩).congr fun t _ => ?_
            rw [← List.map_singleton, exec_firstTerm]
            rfl
          · rintro _ ⟨es, _, hes, rfl, rfl⟩
            exact .negated (fun n hn => hnumber ⟨n, hn⟩) hes
    · rw [expressionRule_plain hsign]
      refine Emits.mono (Emits.congr ((emits_term first).bind fun _ => emits_terms rest)
        fun t _ => exec_firstTerm first _ t) ?_
      rintro _ ⟨es, ds, hes, hds, rfl⟩
      exact .plain hsign hes hds

theorem emits_terms : ∀ xs : List (AddOp × Term),
    Emits c (terms ((Expr.tailValues xs).map rules.spot)) (TermsText c.names xs)
  | [] => (Emits.nothing ()).mono fun _ hes => hes ▸ .nil
  | (op, x) :: rest => by
    refine Emits.mono (Emits.congr ((emits_term x).bind fun _ =>
      (emits_operator (lookup_addWord op)).bind fun _ => emits_terms rest) fun t _ => ?_) ?_
    · rw [Expr.tailValues, exec_nextTerm]
      simp only [bind_assoc]
    · rintro _ ⟨es, _, hes, ⟨_, ds, rfl, hds, rfl⟩, rfl⟩
      exact .cons hes hds

theorem emits_term : ∀ x : Term, Emits c (rules.run x.toValue) (TermText c.names x)
  | .mk first rest => by
    rw [run_term]
    refine Emits.mono ((emits_factor first).bind fun _ => (emits_factors rest).rule Value.none) ?_
    rintro _ ⟨es, ds, hes, hds, rfl⟩
    exact .mk hes hds

theorem emits_factors : ∀ xs : List (MulOp × Factor),
    Emits c (factors ((Term.tailValues xs).map rules.spot)) (FactorsText c.names xs)
  | [] => (Emits.nothing ()).mono fun _ hes => hes ▸ .nil
  | (op, x) :: rest => by
    refine Emits.mono (Emits.congr ((emits_factor x).bind fun _ =>
      (emits_operator (lookup_mulWord op)).bind fun _ => emits_factors rest) fun t _ => ?_) ?_
    · rw [Term.tailValues, List.map_cons, factors, exec_pair]
      simp only [bind_assoc]
      rfl
    · rintro _ ⟨es, _, hes, ⟨_, ds, rfl, hds, rfl⟩, rfl⟩
      exact .cons hes hds

theorem emits_factor : ∀ x : Factor, Emits c (rules.run x.toValue) (FactorText c.names x)
  | .name x => emits_name x
  | .number n => emits_number n
  | .paren e => (emits_expr e).mono fun _ hes => .paren hes

end

/-! ## statements -/

theorem emits_condition (test : Condition) :
    Emits c (rules.run test.toValue) (ConditionText c.names test) := by
  cases test with
  | odd e =>
    rw [Condition.toValue, run_tuple, apply_exactly "odd" _ ruleNames.odd rfl rfl]
    refine (((emits_expr e).bind fun _ => Emits.emit (.say "2 mod 1 =")).rule Value.none).mono ?_
    rintro _ ⟨es, _, hes, rfl, rfl⟩
    exact .odd hes
  | compare l op r =>
    rw [Condition.toValue, run_tuple, apply_exactly "condition" _ ruleNames.condition rfl rfl]
    have hput : Emits c (do put (" " ++ (← wordFor relations (.str op.word)) ++ " "))
        (· = [.put (" " ++ relWord op ++ " ")]) := by
      refine (Emits.emit (.put (" " ++ relWord op ++ " "))).congr fun t _ => ?_
      rw [wordFor, lookup_relWord]
      rfl
    refine (((emits_expr l).bind fun _ => (emits_expr r).bind fun _ => hput).rule Value.none).mono
      ?_
    rintro _ ⟨es, _, hes, ⟨ds, _, hds, rfl, rfl⟩, rfl⟩
    exact .compare hes hds

theorem exec_puts (xs : List String) (w : String) (t : Translator) :
    exec (forIn (xs.map Value.str) PUnit.unit
      fun x _ => do put (x.text ++ w); pure (.yield PUnit.unit)) t =
      (.ok PUnit.unit, t.after (xs.map fun x => .put (x ++ w))) := by
  induction xs generalizing t with
  | nil =>
    rw [List.map_nil, List.map_nil, after_nil]
    rfl
  | cons x xs ih =>
    rw [List.map_cons, List.forIn_cons]
    simp only [bind_assoc, pure_bind]
    rw [put, exec_then (exec_emit _ _)]
    refine (ih _).trans ?_
    rw [after_after]
    rfl

theorem any_same_path (xs : List String) (q : String) :
    (xs.map Value.str).any (·.same (.str q)) = true ↔ q ∈ xs := by
  simp [List.any_eq_true, Value.same_str]

/-- a call never fails, whatever is called -/
theorem exec_call {t : Translator} (hat : At c t) (q : String) :
    exec (rules.run (Statement.call q).toValue) t = (.ok .none, t.after (callText c q)) := by
  rw [Statement.toValue, run_tuple, apply_exactly "call" _ ruleNames.call rfl rfl]
  show exec (callRule (rules.spot (.str q)) >>= fun _ => pure Value.none) t = _
  have hany := any_same_path c.path q
  rw [← hat.path] at hany
  have hrule : exec (callRule (rules.spot (.str q))) t = (.ok (), t.after (callText c q)) := by
    rw [callRule, exec_then (exec_get t), callText]
    by_cases hq : q ∈ c.path
    · have hvars : t.variableNames = c.names.vars.map .str := Lexicon.variableNames_eq hat.names
      simp only [value_spot, hany.2 hq, if_true, hq, hvars, ← List.map_reverse]
      rw [exec_then (exec_puts _ _ _), say, exec_then (exec_emit _ _), exec_then (exec_puts _ _ _),
        after_after, after_after]
      simp [recursion]
    · simp only [value_spot, hany, hq, if_false]
      rfl
  rw [exec_then hrule]
  rfl

theorem emits_assign (x : String) (e : Expr) :
    Emits c (rules.run (Statement.assign x e).toValue) (StatementText c (.assign x e)) := by
  rw [Statement.toValue, run_tuple, apply_exactly "set" _ ruleNames.assign rfl rfl]
  refine Emits.rule ?_ _
  intro t v t' hat h
  obtain ⟨_, t₁, h₁, h⟩ := exec_bind_ok.1 h
  obtain ⟨es, hes, rfl⟩ := emits_expr e hat h₁
  rw [exec_then (exec_modify _ _)] at h
  obtain ⟨_, t₂, hname, hflag⟩ := exec_bind_ok.1 h
  have hnames : ({ t.after es with access := "!" } : Translator).names = c.names.table := hat.names
  obtain ⟨ds, hds, rfl⟩ := exec_access hnames hname
  cases hflag
  refine ⟨es ++ ds, .assign hes hds, ?_⟩
  simp [Translator.after, hat.access]

theorem run_block (ss : List Statement) : rules.run (Statement.block ss).toValue =
    visitAll ((Statement.toValue.bodyValues ss).map rules.spot) := by
  rw [Statement.toValue, run_list, apply_none "begin" _ ruleNames.sequence rfl]
  rfl

theorem run_ifThen (test : Condition) (s : Statement) :
    rules.run (Statement.ifThen test s).toValue = (do
    (do
      let _ ← rules.run test.toValue
      put " if "
      let _ ← rules.run s.toValue
      put " then ")
    pure .none) := by
  rw [Statement.toValue, run_tuple, apply_exactly "if" _ ruleNames.ifThen rfl rfl]
  rfl

theorem run_whileDo (test : Condition) (s : Statement) :
    rules.run (Statement.whileDo test s).toValue = (do
    (do
      say " begin "
      let _ ← rules.run test.toValue
      say " while "
      let _ ← rules.run s.toValue
      say " repeat ")
    pure .none) := by
  rw [Statement.toValue, run_tuple, apply_exactly "while" _ ruleNames.whileDo rfl rfl]
  rfl

mutual

theorem emits_statement : ∀ s : Statement, Emits c (rules.run s.toValue) (StatementText c s)
  | .assign x e => emits_assign x e
  | .call q => by
    intro t v t' hat h
    rw [exec_call hat] at h
    cases h
    exact ⟨_, .call, rfl⟩
  | .block ss => by
    rw [run_block]
    intro t v t' hat h
    obtain ⟨vs, h⟩ := visitAll_ok h
    obtain ⟨es, hes, rfl⟩ := emits_statements ss hat h
    exact ⟨es, .block hes, rfl⟩
  | .ifThen test s => by
    rw [run_ifThen]
    refine (((emits_condition test).bind fun _ => (Emits.emit (.put " if ")).bind fun _ =>
      (emits_statement s).bind fun _ => Emits.emit (.put " then ")).rule Value.none).mono ?_
    rintro _ ⟨es, _, hes, ⟨_, _, rfl, ⟨ds, _, hds, rfl, rfl⟩, rfl⟩, rfl⟩
    exact .ifThen hes hds
  | .whileDo test s => by
    rw [run_whileDo]
    refine (((Emits.emit (.say " begin ")).bind fun _ => (emits_condition test).bind fun _ =>
      (Emits.emit (.say " while ")).bind fun _ => (emits_statement s).bind fun _ =>
        Emits.emit (.say " repeat ")).rule Value.none).mono ?_
    rintro _ ⟨_, _, rfl, ⟨es, _, hes, ⟨_, _, rfl, ⟨ds, _, hds, rfl, rfl⟩, rfl⟩, rfl⟩, rfl⟩
    exact .whileDo hes hds
  | .print e => by
    rw [Statement.toValue, run_tuple, apply_exactly "print" _ ruleNames.print rfl rfl]
    refine (((emits_expr e).bind fun _ => Emits.emit (.say " . ")).rule Value.none).mono ?_
    rintro _ ⟨es, _, hes, rfl, rfl⟩
    exact .print hes

theorem emits_statements : ∀ ss : List Statement,
    Emits c (visitNodes ((Statement.toValue.bodyValues ss).map rules.spot)) (StatementsText c ss)
  | [] => (Emits.nothing []).mono fun _ hes => hes ▸ .nil
  | s :: ss => by
    rw [Statement.toValue.bodyValues, visitNodes_cons (isNode_statement s)]
    refine ((emits_statement s).bind fun v => (emits_statements ss).bind fun vs =>
      Emits.nothing (v :: vs)).mono ?_
    rintro _ ⟨es, _, hes, ⟨ds, _, hds, rfl, rfl⟩, rfl⟩
    rw [List.append_nil]
    exact .cons hes hds

end

/-! ## definitions -/

def procedureValue (q : String) (b : Block) : Value := .tuple [.str "PROCEDURE", .str q, b.toValue]

/-- a block is visited for its declarations, and then its body is defined as a word -/
def define (head : String) : Block → ForthM Unit
  | .mk consts vars procs body => do
    let _ ← visitAll
      ([constsValue consts, varsValue vars, procsValue (Block.procValues procs)].map rules.spot)
    put head
    let _ ← rules.run body.toValue
    put " ;\n"

/-- what stands before the body of a procedure -/
def heading (q : String) : String := ": " ++ q ++ " "

/-- inside the definition of a procedure -/
def Translator.enter (t : Translator) (q : String) : Translator :=
  { t with path := .str q :: t.path, scopes := t.scopes + 1 }

def Translator.leave (t : Translator) : Translator :=
  { t with path := t.path.drop 1, scopes := t.scopes - 1 }

theorem run_program (b : Block) : rules.run (Program.toValue ⟨b⟩) = (do
    define ": run " b
    emit (.sayLine "run\n")
    pure .none) := by
  have hrule : programRule (rules.spot b.toValue) =
      (do define ": run " b; emit (.sayLine "run\n")) := by
    cases b
    simp only [define, bind_assoc]
    rfl
  rw [Program.toValue, run_tuple, apply_exactly "program" _ ruleNames.program rfl rfl]
  show (do programRule (rules.spot b.toValue); pure Value.none) = _
  rw [hrule, bind_assoc]

theorem run_procedure (q : String) (b : Block) : rules.run (procedureValue q b) = (do
    modify (·.enter q)
    define (heading q) b
    modify Translator.leave
    pure .none) := by
  have hrule : procedureRule (rules.spot (.str q)) (rules.spot b.toValue) = (do
      modify (·.enter q)
      define (heading q) b
      modify Translator.leave) := by
    cases b
    simp only [define, bind_assoc]
    rfl
  rw [procedureValue, run_tuple, apply_exactly "procedure" _ (by decide +kernel) rfl rfl]
  show (do procedureRule (rules.spot (.str q)) (rules.spot b.toValue); pure Value.none) = _
  rw [hrule]
  simp only [bind_assoc]

mutual

/-- the emissions for a block whose body is defined inside the procedures `path` -/
inductive DefinitionText : List String → Lexicon → String → Block → List Emission → Prop
  | mk {path : List String} {L : Lexicon} {head : String} {consts : Option (List (String × Nat))}
      {vars : Option (List String)} {procs : List (String × Block)} {body : Statement}
      {es ds : List Emission} :
      ProcsText path (L.enter consts vars) procs es →
      StatementText ⟨path, (L.enter consts vars).addProcs procs⟩ body ds →
        DefinitionText path L head (.mk consts vars procs body)
          ((vars.getD []).map variableLine ++ (es ++ .put head :: (ds ++ [.put " ;\n"])))

inductive ProcsText : List String → Lexicon → List (String × Block) → List Emission → Prop
  | nil {path : List String} {L : Lexicon} : ProcsText path L [] []
  | cons {path : List String} {L : Lexicon} {q : String} {b : Block} {rest : List (String × Block)}
      {es ds : List Emission} : DefinitionText (q :: path) L (heading q) b es →
      ProcsText path (L.addBlock b) rest ds → ProcsText path L ((q, b) :: rest) (es ++ ds)

end

/-- a translator that knows other names after more emissions -/
def Translator.knowing (t : Translator) (L : Lexicon) (es : List Emission) : Translator :=
  { t with names := L.table, emissions := t.emissions ++ es }

theorem At.knowing {path : List String} {L : Lexicon} {t : Translator} (h : At ⟨path, L⟩ t)
    (L' : Lexicon) (es : List Emission) : At ⟨path, L'⟩ (t.knowing L' es) :=
  ⟨h.negate, h.access, h.path, rfl⟩

theorem At.enter {path : List String} {L : Lexicon} {t : Translator} (h : At ⟨path, L⟩ t)
    (q : String) : At ⟨q :: path, L⟩ (t.enter q) :=
  ⟨h.negate, h.access, congrArg (Value.str q :: ·) h.path, h.names⟩

theorem leave_enter (t : Translator) (q : String) (L : Lexicon) (es : List Emission) :
    ((t.enter q).knowing L es).leave = t.knowing L es := rfl

/-- a procedure that is visited to its end -/
theorem exec_procedure {q : String} {b : Block} {t t' : Translator} {v : Value}
    (h : exec (rules.run (procedureValue q b)) t = (.ok v, t')) :
    ∃ u t₁, exec (define (heading q) b) (t.enter q) = (.ok u, t₁) ∧ t' = t₁.leave := by
  rw [run_procedure, exec_then (exec_modify _ _)] at h
  obtain ⟨u, t₁, hdefine, hleave⟩ := exec_bind_ok.1 h
  cases hleave
  exact ⟨u, t₁, hdefine, rfl⟩

/-- the constants and variables of a block -/
theorem exec_declarations {L : Lexicon} {t t' : Translator} (hnames : t.names = L.table)
    {consts : Option (List (String × Nat))} {vars : Option (List String)} {xs vs : List Value}
    (h : exec (visitNodes ((constsValue consts :: varsValue vars :: xs).map rules.spot)) t =
      (.ok vs, t')) :
    ∃ ws, exec (visitNodes (xs.map rules.spot))
      (t.knowing (L.enter consts vars) ((vars.getD []).map variableLine)) = (.ok ws, t') := by
  obtain ⟨_, h⟩ := exec_constants _ _ _ h
  obtain ⟨ws, h⟩ := exec_variables _ _ _ h
  refine ⟨ws, ?_⟩
  rw [Translator.knowing, Lexicon.enter, Lexicon.table_allot, Lexicon.table_define, ← hnames]
  exact h

theorem exec_procsValue {procs : List (String × Block)} {t t' : Translator} {vs : List Value}
    (h : exec (visitNodes ([procsValue (Block.procValues procs)].map rules.spot)) t =
      (.ok vs, t')) :
    ∃ ws, exec (visitNodes ((Block.procValues procs).map rules.spot)) t = (.ok ws, t') := by
  cases procs with
  | nil =>
    rw [Block.procValues, procsValue, visitNodes_skip rfl] at h
    exact ⟨vs, h⟩
  | cons q procs =>
    obtain ⟨q, b⟩ := q
    rw [Block.procValues, procsValue.eq_def] at h
    rw [visitNodes_cons rfl, run_list, apply_none "procedures" _ ruleNames.procs rfl] at h
    obtain ⟨_, t₁, h₁, h₂⟩ := exec_bind_ok.1 h
    cases h₂
    obtain ⟨ws, h₁⟩ := visitAll_ok h₁
    exact ⟨ws, h₁⟩

mutual

/-- a block that is visited: all that it declares stays known -/
theorem exec_define {path : List String} {head : String} :
    ∀ (b : Block) {L : Lexicon} {t t' : Translator}
    {u : Unit}, At ⟨path, L⟩ t → exec (define head b) t = (.ok u, t') →
      ∃ es, DefinitionText path L head b es ∧ t' = t.knowing (L.addBlock b) es
  | .mk consts vars procs body, L, t, t', u, hat, h => by
    rw [define] at h
    obtain ⟨_, t₁, hdecls, h⟩ := exec_bind_ok.1 h
    obtain ⟨_, hdecls⟩ := visitAll_ok hdecls
    obtain ⟨_, hdecls⟩ := exec_declarations hat.names hdecls
    obtain ⟨_, hdecls⟩ := exec_procsValue hdecls
    obtain ⟨es, hes, rfl⟩ := exec_procs procs (hat.knowing _ _) hdecls
    rw [put, exec_then (exec_emit _ _)] at h
    obtain ⟨_, t₂, hbody, h⟩ := exec_bind_ok.1 h
    obtain ⟨ds, hds, rfl⟩ := emits_statement body (((hat.knowing _ _).knowing _ _).after _) hbody
    cases h
    refine ⟨_, .mk hes hds, ?_⟩
    simp [Translator.knowing, Translator.after, Lexicon.addBlock]

theorem exec_procs {path : List String} : ∀ (procs : List (String × Block)) {L : Lexicon}
    {t t' : Translator} {vs : List Value}, At ⟨path, L⟩ t →
      exec (visitNodes ((Block.procValues procs).map rules.spot)) t = (.ok vs, t') →
        ∃ es, ProcsText path L procs es ∧ t' = t.knowing (L.addProcs procs) es
  | [], L, t, t', vs, hat, h => by
    cases h
    refine ⟨[], .nil, ?_⟩
    rw [Translator.knowing, List.append_nil, Lexicon.addProcs, ← hat.names]
  | (q, b) :: rest, L, t, t', vs, hat, h => by
    rw [Block.procValues, visitNodes_cons rfl] at h
    obtain ⟨_, t₁, h₁, h⟩ := exec_bind_ok.1 h
    have hproc : exec (rules.run (procedureValue q b)) t = (.ok _, t₁) := h₁
    obtain ⟨_, t₂, hdef, rfl⟩ := exec_procedure hproc
    obtain ⟨es, hes, rfl⟩ := exec_define b (hat.enter q) hdef
    obtain ⟨_, t₃, h₂, hend⟩ := exec_bind_ok.1 h
    rw [leave_enter] at h₂
    obtain ⟨ds, hds, rfl⟩ := exec_procs rest (hat.knowing _ _) h₂
    cases hend
    refine ⟨es ++ ds, .cons hes hds, ?_⟩
    simp [Translator.knowing, Lexicon.addProcs]

end

/-! ## routines -/

/-- a block whose body is defined as a word -/
structure Routine where
  /-- the procedures around its body, its own name first; none for a program -/
  path : List String
  /-- the names declared before its body -/
  names : Lexicon
  block : Block

def Routine.context (r : Routine) : Context := ⟨r.path, r.names⟩

mutual

/-- the block and the blocks inside it, in the order in which their bodies are defined -/
def routinesOf (path : List String) (L : Lexicon) : Block → List Routine
  | .mk consts vars procs body =>
    procRoutines path (L.enter consts vars) procs ++
      [⟨path, (L.enter consts vars).addProcs procs, .mk consts vars procs body⟩]

def procRoutines (path : List String) (L : Lexicon) : List (String × Block) → List Routine
  | [] => []
  | (q, b) :: rest => routinesOf (q :: path) L b ++ procRoutines path (L.addBlock b) rest

end

/-- the blocks of a program that is translated by itself -/
def routines (p : Program) : List Routine := routinesOf [] .empty p.block

/-! ## programs -/

/-- what is emitted for a tree -/
def emitted (v : Value) (t : Translator) : List Emission :=
  (exec (rules.run v) { t with emissions := [] }).2.emissions

theorem text_translate (v : Value) (t : Translator) :
    (translate v t).2.1 = render false (emitted v t) := rfl

theorem at_start : At ⟨[], .empty⟩ {} := ⟨rfl, rfl, rfl, rfl⟩

/-- **What is emitted for a program** that is translated. -/
theorem emitted_program {p : Program} {v : Value} {text : String} {t : Translator}
    (h : translate p.toValue {} = (.ok v, text, t)) :
    ∃ es, DefinitionText [] .empty ": run " p.block es ∧
      emitted p.toValue {} = es ++ [.sayLine "run\n"] := by
  obtain ⟨b⟩ := p
  have hok : (exec (rules.run (Program.toValue ⟨b⟩)) {}).1 = .ok v := congrArg Prod.fst h
  have hrun : exec (rules.run (Program.toValue ⟨b⟩)) {} =
      (.ok v, (exec (rules.run (Program.toValue ⟨b⟩)) {}).2) := Prod.ext hok rfl
  show ∃ es, _ ∧ (exec (rules.run (Program.toValue ⟨b⟩)) {}).2.emissions = _
  generalize (exec (rules.run (Program.toValue ⟨b⟩)) {}).2 = t' at hrun ⊢
  rw [run_program] at hrun
  obtain ⟨_, t₁, hdef, hrun⟩ := exec_bind_ok.1 hrun
  obtain ⟨es, hes, rfl⟩ := exec_define b at_start hdef
  cases hrun
  exact ⟨es, hes, rfl⟩

end Forth

end Pl0Kit
