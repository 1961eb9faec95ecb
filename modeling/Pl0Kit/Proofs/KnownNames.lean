import Pl0Kit.Proofs.Generated
import Pl0Kit.Proofs.Spelling

/-!
# Code exists where names are known

Whether there is code for a part of a program depends on the kinds of its names only: the names of
an expression are constants or variables, what is assigned to is a variable, and what is called is a
procedure (`Statement.Fits`).  How many labels a statement takes depends on its form alone.  Both
are shown once, for all targets that have a word for every comparison and for all frames.

* `exprCode_iff`        the code of an expression;
* `statementCode_iff`   the code of a statement, and the labels that it takes.
-/

namespace Pl0Kit

/-- what names stand for -/
abbrev Kinds := String → Option EntryKind

/-- the names among some symbols are constants or variables -/
def ValuesIn (kinds : Kinds) (xs : List Symbol) : Prop :=
  ∀ x, Symbol.name x ∈ xs → kinds x = some .const ∨ kinds x = some .var

section ValuesIn

variable {kinds : Kinds} {xs ys : List Symbol}

theorem valuesIn_nil : ValuesIn kinds [] := nofun

theorem valuesIn_append : ValuesIn kinds (xs ++ ys) ↔ ValuesIn kinds xs ∧ ValuesIn kinds ys := by
  simp only [ValuesIn, List.mem_append]
  exact ⟨fun h => ⟨fun x hx => h x (.inl hx), fun x hx => h x (.inr hx)⟩,
    fun h x hx => hx.elim (h.1 x) (h.2 x)⟩

theorem valuesIn_sign {k : Kind} : ValuesIn kinds (.sign k :: xs) ↔ ValuesIn kinds xs := by
  simp [ValuesIn]

theorem valuesIn_name {x : String} :
    ValuesIn kinds [.name x] ↔ kinds x = some .const ∨ kinds x = some .var := by
  simp [ValuesIn]

theorem valuesIn_expr {sign : Option AddOp} {first : Term} {rest : List (AddOp × Term)} :
    ValuesIn kinds (Expr.mk sign first rest).symbols ↔
      ValuesIn kinds first.symbols ∧ ValuesIn kinds (Expr.tailSymbols rest) := by
  cases sign with
  | none => exact valuesIn_append
  | some op => exact valuesIn_sign.trans valuesIn_append

theorem valuesIn_paren {e : Expr} :
    ValuesIn kinds (Factor.paren e).symbols ↔ ValuesIn kinds e.symbols := by
  refine valuesIn_sign.trans (valuesIn_append.trans (and_iff_left ?_))
  exact valuesIn_sign.2 valuesIn_nil

end ValuesIn

/-- names are read, assigned to and called as what they stand for -/
def Statement.Fits (kinds : Kinds) : Statement → Prop
  | .assign x e => kinds x = some .var ∧ ValuesIn kinds e.symbols
  | .call q => kinds q = some .proc
  | .block ss => all ss
  | .ifThen c s => ValuesIn kinds c.symbols ∧ s.Fits kinds
  | .whileDo c s => ValuesIn kinds c.symbols ∧ s.Fits kinds
  | .print e => ValuesIn kinds e.symbols
where
  all : List Statement → Prop
    | [] => True
    | s :: ss => s.Fits kinds ∧ all ss

/-- how many labels a statement takes -/
def Statement.labels : Statement → Nat
  | .assign _ _ | .call _ | .print _ => 0
  | .block ss => allLabels ss
  | .ifThen _ s => s.labels + 1
  | .whileDo _ s => s.labels + 2
where
  allLabels : List Statement → Nat
    | [] => 0
    | s :: ss => s.labels + allLabels ss

/-! ## kinds of names in frames -/

namespace Frames

def kind? (fs : Frames) : Kinds := fun x => (fs.find? (.str x)).map Prod.fst

theorem kind?_cons (f : Frame) (fs : Frames) (x : String) :
    kind? (f :: fs) x = ((f.lookup (.str x)).map Prod.fst).or (kind? fs x) := by
  rw [kind?, kind?, Frames.find?]
  cases f.lookup (.str x) with
  | some r => rfl
  | none => cases fs.find? (.str x) <;> rfl

theorem kind?_eq_some {fs : Frames} {x : String} {kind : EntryKind} :
    fs.kind? x = some kind ↔ ∃ v n, fs.find? (.str x) = some (kind, v, n) := by
  simp [kind?]

end Frames

namespace Generator

variable {T : Target} {fs : Frames}

/-! ## expressions -/

theorem factorCode_name {x : String} :
    (∃ es, FactorCode fs (.name x) es) ↔ ValuesIn fs.kind? [.name x] := by
  rw [valuesIn_name, Frames.kind?_eq_some, Frames.kind?_eq_some]
  constructor
  · rintro ⟨_, hx | hx⟩
    · exact .inr ⟨_, _, hx⟩
    · exact .inl ⟨_, _, hx⟩
  · rintro (⟨v, n, hx⟩ | ⟨v, n, hx⟩)
    · exact ⟨_, .const hx⟩
    · exact ⟨_, .var hx⟩

mutual

theorem exprCode_iff : ∀ e : Expr, (∃ es, ExprCode fs e es) ↔ ValuesIn fs.kind? e.symbols
  | .mk sign first rest => by
    rw [valuesIn_expr, ← termCode_iff first, ← termsCode_iff rest]
    constructor
    · rintro ⟨_, hx, hr⟩
      exact ⟨⟨_, hx⟩, _, hr⟩
    · rintro ⟨⟨_, hx⟩, _, hr⟩
      exact ⟨_, .mk hx hr⟩

theorem termsCode_iff : ∀ xs : List (AddOp × Term),
    (∃ es, TermsCode fs xs es) ↔ ValuesIn fs.kind? (Expr.tailSymbols xs)
  | [] => iff_of_true ⟨[], .nil⟩ valuesIn_nil
  | (op, x) :: rest => by
    rw [Expr.tailSymbols, valuesIn_sign, valuesIn_append, ← termCode_iff x, ← termsCode_iff rest]
    constructor
    · rintro ⟨_, hx⟩
      cases hx with
      | cons hx hr => exact ⟨⟨_, hx⟩, _, hr⟩
    · rintro ⟨⟨_, hx⟩, _, hr⟩
      exact ⟨_, .cons hx hr⟩

theorem termCode_iff : ∀ x : Term, (∃ es, TermCode fs x es) ↔ ValuesIn fs.kind? x.symbols
  | .mk first rest => by
    rw [Term.symbols, valuesIn_append, ← factorCode_iff first, ← factorsCode_iff rest]
    constructor
    · rintro ⟨_, hx, hr⟩
      exact ⟨⟨_, hx⟩, _, hr⟩
    · rintro ⟨⟨_, hx⟩, _, hr⟩
      exact ⟨_, .mk hx hr⟩

theorem factorsCode_iff : ∀ xs : List (MulOp × Factor),
    (∃ es, FactorsCode fs xs es) ↔ ValuesIn fs.kind? (Term.tailSymbols xs)
  | [] => iff_of_true ⟨[], .nil⟩ valuesIn_nil
  | (op, x) :: rest => by
    rw [Term.tailSymbols, valuesIn_sign, valuesIn_append, ← factorCode_iff x,
      ← factorsCode_iff rest]
    constructor
    · rintro ⟨_, hx⟩
      cases hx with
      | cons hx hr => exact ⟨⟨_, hx⟩, _, hr⟩
    · rintro ⟨⟨_, hx⟩, _, hr⟩
      exact ⟨_, .cons hx hr⟩

theorem factorCode_iff : ∀ x : Factor, (∃ es, FactorCode fs x es) ↔ ValuesIn fs.kind? x.symbols
  | .name x => factorCode_name
  | .number n => iff_of_true ⟨_, .number⟩ (by simp [Factor.symbols, ValuesIn])
  | .paren e => by
    rw [valuesIn_paren, ← exprCode_iff e]
    constructor
    · rintro ⟨_, he⟩
      cases he with
      | paren he => exact ⟨_, he⟩
    · rintro ⟨_, he⟩
      exact ⟨_, .paren he⟩

end

/-! ## conditions and statements -/

theorem conditionCode_iff (hT : T.Relates) (c : Condition) :
    (∃ es, ConditionCode T fs c es) ↔ ValuesIn fs.kind? c.symbols := by
  cases c with
  | odd e =>
    rw [Condition.symbols, Symbol.ofKeyword, valuesIn_sign, ← exprCode_iff e]
    constructor
    · rintro ⟨_, he⟩
      cases he with
      | odd he => exact ⟨_, he⟩
    · rintro ⟨_, he⟩
      exact ⟨_, .odd he⟩
  | compare l op r =>
    rw [Condition.symbols, valuesIn_append, valuesIn_sign, ← exprCode_iff l, ← exprCode_iff r]
    constructor
    · rintro ⟨_, hc⟩
      cases hc with
      | compare hl hr _ => exact ⟨⟨_, hl⟩, _, hr⟩
    · rintro ⟨⟨_, hl⟩, _, hr⟩
      obtain ⟨w, hw⟩ := hT op
      exact ⟨_, .compare hl hr hw⟩

mutual

/-- **There is code for a statement exactly if its names are used as what they stand for**, and then
it takes as many labels as its form says. -/
theorem statementCode_iff (hT : T.Relates) : ∀ (s : Statement) (n m : Nat),
    (∃ es, StatementCode T fs n s m es) ↔ m = n + s.labels ∧ s.Fits fs.kind?
  | .assign x e, n, m => by
    rw [Statement.Fits, Frames.kind?_eq_some, ← exprCode_iff e]
    constructor
    · rintro ⟨_, h⟩
      cases h with
      | assign he hx => exact ⟨rfl, ⟨_, _, hx⟩, _, he⟩
    · rintro ⟨rfl, ⟨_, _, hx⟩, _, he⟩
      exact ⟨_, .assign he hx⟩
  | .call q, n, m => by
    rw [Statement.Fits, Frames.kind?_eq_some]
    constructor
    · rintro ⟨_, h⟩
      cases h with
      | call hq => exact ⟨rfl, _, _, hq⟩
    · rintro ⟨rfl, _, _, hq⟩
      exact ⟨_, .call hq⟩
  | .block ss, n, m => by
    rw [Statement.Fits, Statement.labels, ← statementsCode_iff hT ss]
    constructor
    · rintro ⟨_, h⟩
      cases h with
      | block hs => exact ⟨_, hs⟩
    · rintro ⟨_, hs⟩
      exact ⟨_, .block hs⟩
  | .ifThen c s, n, m => by
    have hlabels : n + (s.labels + 1) = n + 1 + s.labels := by omega
    rw [Statement.Fits, Statement.labels, and_left_comm, ← conditionCode_iff hT c, hlabels,
      ← statementCode_iff hT s]
    constructor
    · rintro ⟨_, h⟩
      cases h with
      | ifThen hc hs => exact ⟨⟨_, hc⟩, _, hs⟩
    · rintro ⟨⟨_, hc⟩, _, hs⟩
      exact ⟨_, .ifThen hc hs⟩
  | .whileDo c s, n, m => by
    have hlabels : n + (s.labels + 2) = n + 2 + s.labels := by omega
    rw [Statement.Fits, Statement.labels, and_left_comm, ← conditionCode_iff hT c, hlabels,
      ← statementCode_iff hT s]
    constructor
    · rintro ⟨_, h⟩
      cases h with
      | whileDo _ _ hc hs => exact ⟨⟨_, hc⟩, _, hs⟩
    · rintro ⟨⟨_, hc⟩, _, hs⟩
      exact ⟨_, .whileDo rfl rfl hc hs⟩
  | .print e, n, m => by
    rw [Statement.Fits, ← exprCode_iff e]
    constructor
    · rintro ⟨_, h⟩
      cases h with
      | print he => exact ⟨rfl, _, he⟩
    · rintro ⟨rfl, _, he⟩
      exact ⟨_, .print he⟩

theorem statementsCode_iff (hT : T.Relates) : ∀ (ss : List Statement) (n m : Nat),
    (∃ es, StatementsCode T fs n ss m es) ↔
      m = n + Statement.labels.allLabels ss ∧ Statement.Fits.all fs.kind? ss
  | [], n, m => by
    constructor
    · rintro ⟨_, h⟩
      cases h
      exact ⟨rfl, trivial⟩
    · rintro ⟨rfl, -⟩
      exact ⟨[], .nil⟩
  | s :: ss, n, m => by
    rw [Statement.Fits.all, Statement.labels.allLabels, ← Nat.add_assoc, and_left_comm,
      ← statementsCode_iff hT ss]
    constructor
    · rintro ⟨_, h⟩
      cases h with
      | cons hs hr =>
        obtain ⟨rfl, hfits⟩ := (statementCode_iff hT s _ _).1 ⟨_, hs⟩
        exact ⟨hfits, _, hr⟩
    · rintro ⟨hfits, _, hr⟩
      obtain ⟨_, hs⟩ := (statementCode_iff hT s n _).2 ⟨rfl, hfits⟩
      exact ⟨_, .cons hs hr⟩

end

end Generator

end Pl0Kit
