import Mathlib.Data.List.Forall2
import Pl0Kit.Proofs.Labels
import Pl0Kit.Proofs.Linking
import Pl0Kit.Proofs.Spelling

/-!
# Declarations

Which declaration the name of a variable refers to, and that generated code loads and saves at the
label of this declaration.  The variables of a program are numbered in the order of their
declarations: those of its block, then those of each procedure.

* `meaningOf x scope`      what `x` stands for inside some blocks: a number or a declared variable;
* `Statement.accesses`     what a statement reads and writes, in the order of its code;
* `Part`                   a statement that is compiled on its own: the body of a procedure or of
                           the program;
* `ProgramCode.parts`      the events of a program hold those of its parts;
* `ProgramCode.accesses`   the loads and saves in the code of a program.
-/

namespace Pl0Kit

open Machine (Opcode)

/-! ## declarations of variables -/

/-- the variables that a block declares, in order and with repetitions -/
def Block.variables : Block → List String
  | .mk _ vars _ _ => vars.getD []

/-- the place of a name in a list; the last one counts -/
def lastIndex (x : String) : List String → Option Nat
  | [] => none
  | y :: ys =>
    match lastIndex x ys with
    | some i => some (i + 1)
    | none => if x = y then some 0 else none

theorem lastIndex_lt {x : String} {xs : List String} {i : Nat} (h : lastIndex x xs = some i) :
    i < xs.length := by
  induction xs generalizing i with
  | nil => cases h
  | cons y ys ih =>
    rw [lastIndex] at h
    split at h
    · rename_i j hj
      cases h
      exact Nat.succ_lt_succ (ih hj)
    · split at h
      · cases h
        exact Nat.zero_lt_succ _
      · cases h

/-- what a name that is read stands for: a number, or the variable with the given declaration -/
inductive Meaning where
  | const (n : Int)
  | var (d : Nat)
  deriving DecidableEq

/-- the meaning of a name in the blocks around it, from the inside out, each with the number of
variables that are declared before it; in a block, constants go before variables -/
def meaningOf (x : String) : List (Block × Nat) → Option Meaning
  | [] => none
  | (b, n) :: outer =>
    ((b.scope.const x).map .const).or
      (((lastIndex x b.variables).map fun i => .var (n + i)).or (meaningOf x outer))

/-- the declaration that a name refers to, if it is the name of a variable -/
def declarationOf (x : String) (scope : List (Block × Nat)) : Option Nat :=
  match meaningOf x scope with
  | some (.var d) => some d
  | _ => none

/-! ## what a program reads and writes -/

/-- the variables that are read among some symbols -/
def readsIn (scope : List (Block × Nat)) (xs : List Symbol) : List (Opcode × Nat) :=
  xs.filterMap fun
    | .name x => (declarationOf x scope).map fun d => (.load, d)
    | _ => none

/-- the variables that a statement reads and writes, in the order of its code -/
def Statement.accesses (scope : List (Block × Nat)) : Statement → List (Opcode × Nat)
  | .assign x e =>
    readsIn scope e.symbols ++ ((declarationOf x scope).map fun d => (Opcode.save, d)).toList
  | .call _ => []
  | .block ss => allAccesses ss
  | .ifThen c s => readsIn scope c.symbols ++ s.accesses scope
  | .whileDo c s => readsIn scope c.symbols ++ s.accesses scope
  | .print e => readsIn scope e.symbols
where
  allAccesses : List Statement → List (Opcode × Nat)
    | [] => []
    | s :: ss => s.accesses scope ++ allAccesses ss

/-- a statement that is compiled on its own, with the blocks around it -/
structure Part where
  body : Statement
  scope : List (Block × Nat)

def Part.accesses (q : Part) : List (Opcode × Nat) := q.body.accesses q.scope

/-- the bodies of the procedures of a block, where `n` variables are declared before -/
def procParts (outer : Block) (n : Nat) : List (String × Block) → List Part
  | [] => []
  | (_, b) :: rest =>
    ⟨b.body, [(b, n), (outer, 0)]⟩ :: procParts outer (n + b.variables.length) rest

namespace Program

/-- the parts of a program in the order of their code -/
def parts (p : Program) : List Part :=
  procParts p.block p.block.variables.length p.block.procs ++ [⟨p.block.body, [(p.block, 0)]⟩]

/-- the variables that a program declares -/
def declarations (p : Program) : List String :=
  p.block.variables ++ p.block.procs.flatMap fun q => q.2.variables

def accesses (p : Program) : List (Opcode × Nat) := p.parts.flatMap Part.accesses

end Program

@[simp] theorem readsIn_append (scope : List (Block × Nat)) (xs ys : List Symbol) :
    readsIn scope (xs ++ ys) = readsIn scope xs ++ readsIn scope ys := List.filterMap_append

@[simp] theorem readsIn_sign (scope : List (Block × Nat)) (k : Kind) (xs : List Symbol) :
    readsIn scope (.sign k :: xs) = readsIn scope xs := rfl

namespace Generator

/-! ## labels of declarations -/

/-- the label of the cell that an event makes -/
def Event.cell? : Event → Option String
  | .cell l => some l
  | _ => none

/-- the labels of the cells of some events -/
def cellsOf (es : List Event) : List String := es.filterMap Event.cell?

@[simp] theorem cellsOf_append (es ds : List Event) :
    cellsOf (es ++ ds) = cellsOf es ++ cellsOf ds :=
  List.filterMap_append

theorem cellsOf_cons_none {e : Event} (h : e.cell? = none) (es : List Event) :
    cellsOf (e :: es) = cellsOf es := List.filterMap_cons_none h

theorem mem_cellsOf {es : List Event} {l : String} : l ∈ cellsOf es ↔ .cell l ∈ es := by
  rw [cellsOf, List.mem_filterMap]
  constructor
  · rintro ⟨e, he, hl⟩
    cases e with
    | cell k =>
      cases hl
      exact he
    | _ => cases hl
  · exact fun h => ⟨_, h, rfl⟩

theorem length_cellsOf (T : Target) (n : Nat) (xs : List String) :
    (cellsOf (cellEvents T n xs)).length = xs.length := by
  induction xs generalizing n with
  | nil => rfl
  | cons x xs ih => exact congrArg (· + 1) (ih (n + 1))

/-- a variable has the label of its last declaration -/
theorem get?_declareAll (T : Target) (xs : List String) (n : Nat) (f : Frame) (x : String) :
    (declareAll T n f xs).vars.get? (.str x) =
      match lastIndex x xs with
      | some i => (cellsOf (cellEvents T n xs))[i]?.map .str
      | none => f.vars.get? (.str x) := by
  induction xs generalizing n f with
  | nil => rfl
  | cons y ys ih =>
    rw [declareAll, ih, lastIndex]
    cases hi : lastIndex x ys with
    | some i => rfl
    | none =>
      show (f.vars.put (.str y) _).get? _ = _
      rw [Table.get?_put]
      by_cases hx : x = y
      · rw [if_pos hx, if_pos hx]
        rfl
      · rw [if_neg hx, if_neg hx]

/-- the label of a declaration, where all labels are `ls` -/
def LabelOf (ls : List String) (d : Nat) (v : Value) : Prop := ∃ l, ls[d]? = some l ∧ v = .str l

/-- a frame holds the constants of a block and the labels of its variables -/
structure Labelled (ls : List String) (f : Frame) (r : Block × Nat) : Prop where
  const : ∀ x, f.consts.get? (.str x) = (r.1.scope.const x).map .int
  var : ∀ x, Option.Rel (fun i => LabelOf ls (r.2 + i)) (lastIndex x r.1.variables)
    (f.vars.get? (.str x))
  worded : Worded f

theorem Labelled.declare {ls : List String} {f : Frame} {r : Block × Nat} (h : Labelled ls f r)
    (k : Value) (l : String) : Labelled ls (f.declare k (.str l)) r :=
  ⟨h.const, h.var, h.worded.declare k trivial⟩

theorem worded_of_labelled {ls : List String} {fs : Frames} {scope : List (Block × Nat)}
    (h : List.Forall₂ (Labelled ls) fs scope) : ∀ f ∈ fs, Worded f := by
  induction h with
  | nil => exact nofun
  | cons hf _ ih => exact List.forall_mem_cons.2 ⟨hf.worded, ih⟩

theorem labelled_declared {T : Target} {n : Nat} {consts : Option (List (String × Nat))}
    {vars : Option (List String)} {ls before after : List String}
    (hls : ls = before ++ (cellsOf (cellEvents T n (vars.getD [])) ++ after))
    (procs : List (String × Block)) (body : Statement) :
    Labelled ls (declared T n {} consts vars) (.mk consts vars procs body, before.length) := by
  refine ⟨fun x => ?_, fun x => ?_, Scoped.empty.declared consts fun _ _ => trivial⟩
  · rw [declared, (declareAll_keeps T _ n _).1]
    exact Evaluator.get?_defineAll _ x rfl
  · have hnone : (defineAll {} (consts.getD [])).vars.get? (.str x) = none := by
      rw [(Evaluator.defineAll_keeps _ {}).1]
      rfl
    rw [declared, get?_declareAll]
    show Option.Rel _ (lastIndex x (vars.getD [])) _
    cases hi : lastIndex x (vars.getD []) with
    | none =>
      show Option.Rel _ none ((defineAll {} (consts.getD [])).vars.get? (.str x))
      rw [hnone]
      exact .none
    | some i =>
      have hlt : i < (cellsOf (cellEvents T n (vars.getD []))).length := by
        rw [length_cellsOf]
        exact lastIndex_lt hi
      show Option.Rel _ (some i) ((cellsOf (cellEvents T n (vars.getD [])))[i]?.map Value.str)
      rw [List.getElem?_eq_getElem hlt]
      refine .some ⟨_, ?_, rfl⟩
      rw [hls, List.getElem?_append_right (Nat.le_add_right _ _), Nat.add_sub_cancel_left,
        List.getElem?_append_left hlt, List.getElem?_eq_getElem hlt]

/-- an entry that is found for a name, and what the name means -/
def EntryMeans (ls : List String) (scope : List (Block × Nat)) (x : String) :
    EntryKind → Value → Prop
  | .const, v => ∃ c : Nat, meaningOf x scope = some (.const c) ∧ v = .int c
  | .var, v => ∃ d, meaningOf x scope = some (.var d) ∧ LabelOf ls d v
  | .proc, _ => True

/-- names are looked up as the declarations say -/
theorem find_means {ls : List String} {fs : Frames} {scope : List (Block × Nat)}
    (h : List.Forall₂ (Labelled ls) fs scope) {x : String} {kind : EntryKind} {v : Value} {n : Nat}
    (hf : fs.find? (.str x) = some (kind, v, n)) : EntryMeans ls scope x kind v := by
  induction h generalizing n with
  | nil => cases hf
  | @cons f r fs scope hfr _ ih =>
    obtain ⟨b, k⟩ := r
    have hvar := hfr.var x
    have hscope : meaningOf x ((b, k) :: scope) = ((b.scope.const x).map .const).or
        (((lastIndex x b.variables).map fun i => .var (k + i)).or (meaningOf x scope)) := rfl
    rw [Frames.find?, Frame.lookup, hfr.const x] at hf
    cases hc : b.scope.const x with
    | some c =>
      obtain ⟨c, rfl⟩ := nat_of_const hc
      rw [hc] at hf hscope
      cases hf
      exact ⟨c, hscope, rfl⟩
    | none =>
      rw [hc] at hf hscope
      generalize lastIndex x b.variables = i, f.vars.get? (.str x) = w at hvar hf hscope
      cases hvar with
      | some hl =>
        cases hf
        exact ⟨_, hscope, hl⟩
      | none =>
        cases hp : f.procs.get? (.str x) with
        | some u =>
          rw [hp] at hf
          cases hf
          trivial
        | none =>
          rw [hp] at hf
          obtain ⟨⟨kind', v', n'⟩, hr, he⟩ := Option.map_eq_some_iff.1 hf
          cases he
          have hrest := ih hr
          cases kind with
          | const =>
            obtain ⟨c, hc, hv⟩ := hrest
            exact ⟨c, hscope.trans hc, hv⟩
          | var =>
            obtain ⟨d, hd, hl⟩ := hrest
            exact ⟨d, hscope.trans hd, hl⟩
          | proc => trivial

/-! ## loads and saves -/

/-- the label that an event loads from or saves at -/
def Event.access? : Event → Option (Opcode × String)
  | .load l => some (.load, l)
  | .save l => some (.save, l)
  | _ => none

/-- the loads and saves among some events -/
def accessesOf (es : List Event) : List (Opcode × String) := es.filterMap Event.access?

@[simp] theorem accessesOf_append (es ds : List Event) :
    accessesOf (es ++ ds) = accessesOf es ++ accessesOf ds := List.filterMap_append

/-- the instruction `b` goes to the label of the declaration of `a` -/
def Refers (ls : List String) (a : Opcode × Nat) (b : Opcode × String) : Prop :=
  a.1 = b.1 ∧ ls[a.2]? = some b.2

section Accesses

variable {ls : List String} {fs : Frames} {scope : List (Block × Nat)}

mutual

theorem ExprCode.reads (hfs : List.Forall₂ (Labelled ls) fs scope) : ∀ {e : Expr} {es : List Event},
    ExprCode fs e es → List.Forall₂ (Refers ls) (readsIn scope e.symbols) (accessesOf es)
  | .mk sign first rest, _, @ExprCode.mk _ _ _ _ cs ds ht hr => by
    have hsum : List.Forall₂ (Refers ls) (readsIn scope (first.symbols ++ Expr.tailSymbols rest))
        (accessesOf cs ++ (accessesOf ds ++ [])) := by
      rw [readsIn_append, List.append_nil]
      exact List.rel_append (ht.reads hfs) (hr.reads hfs)
    rw [accessesOf_append, accessesOf_append]
    rcases sign with _ | _ | _ <;> exact hsum

theorem TermsCode.reads (hfs : List.Forall₂ (Labelled ls) fs scope) :
    ∀ {xs : List (AddOp × Term)} {es : List Event}, TermsCode fs xs es →
      List.Forall₂ (Refers ls) (readsIn scope (Expr.tailSymbols xs)) (accessesOf es)
  | _, _, .nil => .nil
  | (op, x) :: rest, _, .cons hx hr => by
    rw [Expr.tailSymbols, readsIn_sign, readsIn_append, accessesOf_append]
    refine List.rel_append (hx.reads hfs) ?_
    cases op <;> exact hr.reads hfs

theorem TermCode.reads (hfs : List.Forall₂ (Labelled ls) fs scope) : ∀ {x : Term} {es : List Event},
    TermCode fs x es → List.Forall₂ (Refers ls) (readsIn scope x.symbols) (accessesOf es)
  | _, _, .mk hf hr => by
    rw [Term.symbols, readsIn_append, accessesOf_append]
    exact List.rel_append (hf.reads hfs) (hr.reads hfs)

theorem FactorsCode.reads (hfs : List.Forall₂ (Labelled ls) fs scope) :
    ∀ {xs : List (MulOp × Factor)} {es : List Event}, FactorsCode fs xs es →
      List.Forall₂ (Refers ls) (readsIn scope (Term.tailSymbols xs)) (accessesOf es)
  | _, _, .nil => .nil
  | (op, x) :: rest, _, .cons hx hr => by
    rw [Term.tailSymbols, readsIn_sign, readsIn_append, accessesOf_append]
    refine List.rel_append (hx.reads hfs) ?_
    cases op <;> exact hr.reads hfs

theorem FactorCode.reads (hfs : List.Forall₂ (Labelled ls) fs scope) :
    ∀ {x : Factor} {es : List Event}, FactorCode fs x es →
      List.Forall₂ (Refers ls) (readsIn scope x.symbols) (accessesOf es)
  | .name x, _, .var hf => by
    obtain ⟨d, hd, l, hl, rfl⟩ := find_means hfs hf
    simp only [Factor.symbols, readsIn, List.filterMap_cons, declarationOf, hd, List.filterMap_nil,
      Option.map_some]
    exact .cons ⟨rfl, hl⟩ .nil
  | .name x, _, .const hf => by
    obtain ⟨c, hc, rfl⟩ := find_means hfs hf
    simp only [Factor.symbols, readsIn, List.filterMap_cons, declarationOf, hc, List.filterMap_nil,
      Option.map_none]
    exact .nil
  | _, _, .number => .nil
  | _, _, .paren h => by
    rw [Factor.symbols, readsIn_sign, readsIn_append]
    exact (List.append_nil _).symm ▸ h.reads hfs

end

theorem ConditionCode.reads (hfs : List.Forall₂ (Labelled ls) fs scope) {c : Condition}
    {es : List Event} (h : ConditionCode assembly fs c es) :
    List.Forall₂ (Refers ls) (readsIn scope c.symbols) (accessesOf es) := by
  cases h with
  | odd he =>
    rw [accessesOf_append]
    exact (List.append_nil _).symm ▸ he.reads hfs
  | compare hl hr _ =>
    rw [Condition.symbols, readsIn_append, readsIn_sign, accessesOf_append, accessesOf_append]
    exact List.rel_append (hl.reads hfs) ((List.append_nil _).symm ▸ hr.reads hfs)

mutual

theorem StatementCode.accesses (hfs : List.Forall₂ (Labelled ls) fs scope) : ∀ {n m : Nat}
    {s : Statement} {es : List Event}, StatementCode assembly fs n s m es →
      List.Forall₂ (Refers ls) (s.accesses scope) (accessesOf es)
  | _, _, _, _, .assign he hf => by
    obtain ⟨d, hd, l, hl, rfl⟩ := find_means hfs hf
    rw [Statement.accesses, declarationOf, hd, accessesOf_append]
    exact List.rel_append (he.reads hfs) (.cons ⟨rfl, hl⟩ .nil)
  | _, _, _, _, .call _ => .nil
  | _, _, _, _, .block hs => hs.accesses hfs
  | _, _, _, _, .ifThen hc hs => by
    rw [Statement.accesses, accessesOf_append]
    refine List.rel_append (hc.reads hfs) ?_
    show List.Forall₂ _ _ (accessesOf (_ ++ [_]))
    rw [accessesOf_append]
    exact (List.append_nil _).symm ▸ hs.accesses hfs
  | _, _, _, _, @StatementCode.whileDo _ _ _ _ _ _ cs ds top bottom _ _ hc hs => by
    show List.Forall₂ _ _ (accessesOf ((cs ++ .loopExit top bottom :: ds) ++ [_]))
    rw [Statement.accesses, accessesOf_append, accessesOf_append]
    exact (List.append_nil _).symm ▸ List.rel_append (hc.reads hfs) (hs.accesses hfs)
  | _, _, _, _, .print he => by
    rw [Statement.accesses, accessesOf_append]
    exact (List.append_nil _).symm ▸ he.reads hfs

theorem StatementsCode.accesses (hfs : List.Forall₂ (Labelled ls) fs scope) : ∀ {n m : Nat}
    {ss : List Statement} {es : List Event}, StatementsCode assembly fs n ss m es →
      List.Forall₂ (Refers ls) (Statement.accesses.allAccesses scope ss) (accessesOf es)
  | _, _, _, _, .nil => .nil
  | _, _, _, _, .cons hs hr => by
    rw [Statement.accesses.allAccesses, accessesOf_append]
    exact List.rel_append (hs.accesses hfs) (hr.accesses hfs)

end

end Accesses

/-! ## cells of programs -/

section Cells

variable {fs : Frames}

theorem cellsOf_straight {es : List Event} (h : ∀ e ∈ es, e.Straight) : cellsOf es = [] := by
  refine List.filterMap_eq_nil_iff.2 fun e he => ?_
  cases e with
  | cell l => cases (h _ he).1
  | _ => rfl

mutual

/-- statements have no cells of their own -/
theorem StatementCode.cellsOf_eq : ∀ {n m : Nat} {s : Statement} {es : List Event},
    StatementCode assembly fs n s m es → cellsOf es = []
  | _, _, _, _, .assign he _ => by
    rw [cellsOf_append, cellsOf_straight he.straight]
    rfl
  | _, _, _, _, .call _ => rfl
  | _, _, _, _, .block hs => hs.cellsOf_eq
  | _, _, _, _, .ifThen hc hs => by
    rw [cellsOf_append, cellsOf_straight hc.straight, cellsOf_cons_none rfl, cellsOf_append,
      hs.cellsOf_eq]
    rfl
  | _, _, _, _, @StatementCode.whileDo _ _ _ _ _ _ cs ds top bottom _ _ hc hs => by
    show cellsOf ((cs ++ .loopExit top bottom :: ds) ++ [_]) = []
    rw [cellsOf_append, cellsOf_append, cellsOf_straight hc.straight, cellsOf_cons_none rfl,
      hs.cellsOf_eq]
    rfl
  | _, _, _, _, .print he => by
    rw [cellsOf_append, cellsOf_straight he.straight]
    rfl

theorem StatementsCode.cellsOf_eq : ∀ {n m : Nat} {ss : List Statement} {es : List Event},
    StatementsCode assembly fs n ss m es → cellsOf es = []
  | _, _, _, _, .nil => rfl
  | _, _, _, _, .cons hs hr => by
    rw [cellsOf_append, hs.cellsOf_eq, hr.cellsOf_eq]
    rfl

end

theorem accessesOf_cells (T : Target) (n : Nat) (xs : List String) :
    accessesOf (cellEvents T n xs) = [] := by
  induction xs generalizing n with
  | nil => rfl
  | cons x xs ih => exact ih (n + 1)

end Cells

/-! ## programs -/

theorem StatementCode.cellsOf_procedure {T : Target} {fs : Frames} {n m j : Nat} {p label : String}
    {xs : List String} {s : Statement} {cs : List Event} (h : StatementCode assembly fs n s m cs)
    (ds : List Event) :
    cellsOf (.procHead p :: (cellEvents T j xs ++ .procOpen label ::
      (cs ++ .procClose label :: ds))) = cellsOf (cellEvents T j xs) ++ cellsOf ds := by
  rw [cellsOf_cons_none rfl, cellsOf_append, cellsOf_cons_none rfl, cellsOf_append, h.cellsOf_eq,
    cellsOf_cons_none rfl, List.nil_append]

theorem StatementCode.cellsOf_program {T : Target} {fs : Frames} {n m j : Nat} {xs : List String}
    {s : Statement} {ds : List Event} (h : StatementCode assembly fs n s m ds) (cs : List Event) :
    cellsOf (.start :: (cellEvents T j xs ++ (cs ++ .mainOpen :: (ds ++ [.mainClose])))) =
      cellsOf (cellEvents T j xs) ++ cellsOf cs := by
  rw [cellsOf_cons_none rfl, cellsOf_append, cellsOf_append, cellsOf_cons_none rfl, cellsOf_append,
    h.cellsOf_eq]
  exact congrArg _ (List.append_nil _)

/-- the events of a part, where the labels of all variables are `ls` -/
def PartCode (ls : List String) (q : Part) (es : List Event) : Prop :=
  ∃ fs n m, List.Forall₂ (Labelled ls) fs q.scope ∧ StatementCode assembly fs n q.body m es

/-- events of procedures are made of the events of their parts, which hold all loads and saves -/
theorem ProcsCode.parts {ls before after : List String} {outer : Block} {n m : Nat} {f f' : Frame}
    {procs : List (String × Block)} {es : List Event}
    (h : ProcsCode assembly [] n f procs m f' es) (hf : Labelled ls f (outer, 0))
    (hls : ls = before ++ (cellsOf es ++ after)) :
    Labelled ls f' (outer, 0) ∧ ∃ css,
      List.Forall₂ (PartCode ls) (procParts outer before.length procs) css ∧
        accessesOf es = css.flatMap accessesOf ∧ ∀ cs ∈ css, cs <:+: es := by
  induction h generalizing before with
  | nil => exact ⟨hf, [], .nil, rfl, nofun⟩
  | @cons n m k f f' p consts vars inner rest body cs ds g label _ hg hs _ ih =>
    subst hg
    rw [hs.cellsOf_procedure, List.append_assoc] at hls
    have hlocal : Labelled ls (declared assembly (n + 1) {} consts vars)
        (.mk consts vars inner body, before.length) := labelled_declared hls inner body
    have hglobal := hf.declare (.str p) label
    obtain ⟨hf', css, hparts, haccess, hheld⟩ := ih hglobal (by rw [hls, List.append_assoc])
    rw [List.length_append, length_cellsOf] at hparts
    have hsplit : .procHead p :: (cellEvents assembly (n + 1) (vars.getD []) ++
        .procOpen label :: (cs ++ .procClose label :: ds)) =
        (.procHead p :: (cellEvents assembly (n + 1) (vars.getD []) ++ [.procOpen label])) ++
          (cs ++ .procClose label :: ds) := by simp
    refine ⟨hf', cs :: css, .cons ⟨_, _, _, .cons hlocal (.cons hglobal .nil), hs⟩ hparts, ?_, ?_⟩
    · rw [hsplit, accessesOf_append, accessesOf_append, List.flatMap_cons, ← haccess]
      show accessesOf (_ ++ [Event.procOpen label]) ++ _ = _
      rw [accessesOf_append, accessesOf_cells]
      rfl
    · rw [hsplit]
      refine List.forall_mem_cons.2 ⟨⟨_, _, List.append_assoc _ _ _⟩, fun c hc => ?_⟩
      have hrest : ds <:+ cs ++ .procClose label :: ds := ⟨cs ++ [.procClose label], by simp⟩
      exact (hheld c hc).trans (hrest.trans (List.suffix_append _ _)).isInfix

/-- **A program is made of its parts**: in order, they hold all loads and saves. -/
theorem ProgramCode.parts {p : Program} {m : Nat} {f : Frame} {es : List Event}
    (h : ProgramCode assembly p m f es) : ∃ css,
      List.Forall₂ (PartCode (cellsOf es)) p.parts css ∧
        accessesOf es = css.flatMap accessesOf ∧ ∀ cs ∈ css, cs <:+: es := by
  cases h with
  | @mk k m f consts vars procs body cs ds hprocs hs =>
    rw [hs.cellsOf_program]
    have hframe : Labelled (cellsOf (cellEvents assembly 0 (vars.getD [])) ++ cellsOf cs)
        (declared assembly 0 {} consts vars) (.mk consts vars procs body, 0) :=
      labelled_declared (List.nil_append _).symm procs body
    obtain ⟨hf, css, hparts, haccess, hheld⟩ :=
      hprocs.parts hframe (congrArg _ (List.append_nil _).symm)
    rw [length_cellsOf] at hparts
    have hsplit : .start :: (cellEvents assembly 0 (vars.getD []) ++
        (cs ++ .mainOpen :: (ds ++ [.mainClose]))) =
        (.start :: cellEvents assembly 0 (vars.getD [])) ++
          (cs ++ ([.mainOpen] ++ (ds ++ [.mainClose]))) := rfl
    refine ⟨css ++ [ds], List.rel_append hparts (.cons ⟨_, _, _, .cons hf .nil, hs⟩ .nil), ?_, ?_⟩
    · rw [hsplit, accessesOf_append, accessesOf_append, accessesOf_append, accessesOf_append,
        haccess, List.flatMap_append]
      show accessesOf (cellEvents assembly 0 (vars.getD [])) ++ _ = _
      rw [accessesOf_cells]
      rfl
    · rw [hsplit]
      refine List.forall_mem_append.2 ⟨fun c hc => ?_, List.forall_mem_singleton.2 ?_⟩
      · exact (hheld c hc).trans ⟨_, _, List.append_assoc _ _ _⟩
      · exact ⟨(.start :: cellEvents assembly 0 (vars.getD [])) ++ (cs ++ [.mainOpen]),
          [.mainClose], by simp⟩

/-- **Programs load and save at the labels of the declarations that their names refer to.** -/
theorem ProgramCode.accesses {p : Program} {m : Nat} {f : Frame} {es : List Event}
    (h : ProgramCode assembly p m f es) :
    List.Forall₂ (Refers (cellsOf es)) p.accesses (accessesOf es) := by
  obtain ⟨css, hparts, haccess, -⟩ := h.parts
  rw [haccess]
  refine List.rel_flatMap hparts ?_
  rintro q cs ⟨fs, n, m, hfs, hs⟩
  exact hs.accesses hfs

/-- the label of a cell shows the name of its variable -/
def ShowsName (x l : String) : Prop := ∃ n, l = varLabel assembly n x

theorem showsName_cells (n : Nat) (xs : List String) :
    List.Forall₂ ShowsName xs (cellsOf (cellEvents assembly n xs)) := by
  induction xs generalizing n with
  | nil => exact .nil
  | cons x xs ih => exact .cons ⟨n, rfl⟩ (ih (n + 1))

theorem ProcsCode.declarations {fs : Frames} {n m : Nat} {f f' : Frame}
    {procs : List (String × Block)} {es : List Event}
    (h : ProcsCode assembly fs n f procs m f' es) :
    List.Forall₂ ShowsName (procs.flatMap fun q => q.2.variables) (cellsOf es) := by
  induction h with
  | nil => exact .nil
  | @cons n m k f f' p consts vars inner rest body cs ds g label _ _ hs _ ih =>
    rw [hs.cellsOf_procedure, List.flatMap_cons]
    exact List.rel_append (showsName_cells (n + 1) (vars.getD [])) ih

/-- programs have one cell for each declaration -/
theorem ProgramCode.declarations {p : Program} {m : Nat} {f : Frame} {es : List Event}
    (h : ProgramCode assembly p m f es) : List.Forall₂ ShowsName p.declarations (cellsOf es) := by
  cases h with
  | @mk k m f consts vars procs body cs ds hprocs hs =>
    rw [hs.cellsOf_program]
    exact List.rel_append (showsName_cells 0 (vars.getD [])) hprocs.declarations

end Generator

end Pl0Kit
