import Pl0Kit.Proofs.Shape

/-!
# Renaming

`Program.rename r` puts `r x` for every name `x` of a program, at its declarations and at its uses.
What it does to a program depends on its names only (`Program.rename_congr`), it keeps the shape of
parsed programs (`Program.Shaped.rename`), and it follows the grammar symbol by symbol
(`Program.symbols_rename`).
-/

namespace Pl0Kit

variable {r s : String → String}

mutual

def Expr.rename (r : String → String) : Expr → Expr
  | .mk sign first rest => .mk sign (first.rename r) (Expr.tailRename r rest)

def Expr.tailRename (r : String → String) : List (AddOp × Term) → List (AddOp × Term)
  | [] => []
  | (op, t) :: rest => (op, t.rename r) :: Expr.tailRename r rest

def Term.rename (r : String → String) : Term → Term
  | .mk first rest => .mk (first.rename r) (Term.tailRename r rest)

def Term.tailRename (r : String → String) : List (MulOp × Factor) → List (MulOp × Factor)
  | [] => []
  | (op, f) :: rest => (op, f.rename r) :: Term.tailRename r rest

def Factor.rename (r : String → String) : Factor → Factor
  | .name x => .name (r x)
  | .number n => .number n
  | .paren e => .paren (e.rename r)

end

def Condition.rename (r : String → String) : Condition → Condition
  | .odd e => .odd (e.rename r)
  | .compare lhs op rhs => .compare (lhs.rename r) op (rhs.rename r)

def Statement.rename (r : String → String) : Statement → Statement
  | .assign x e => .assign (r x) (e.rename r)
  | .call p => .call (r p)
  | .block body => .block (renameAll body)
  | .ifThen c s => .ifThen (c.rename r) (s.rename r)
  | .whileDo c s => .whileDo (c.rename r) (s.rename r)
  | .print e => .print (e.rename r)
where
  renameAll : List Statement → List Statement
    | [] => []
    | s :: ss => s.rename r :: renameAll ss

def renameConsts (r : String → String) (consts : Option (List (String × Nat))) :
    Option (List (String × Nat)) := consts.map (List.map fun d => (r d.1, d.2))

def renameVars (r : String → String) (vars : Option (List String)) : Option (List String) :=
  vars.map (List.map r)

mutual

def Block.rename (r : String → String) : Block → Block
  | .mk consts vars procs body =>
    .mk (renameConsts r consts) (renameVars r vars) (Block.renameProcs r procs) (body.rename r)

def Block.renameProcs (r : String → String) : List (String × Block) → List (String × Block)
  | [] => []
  | (p, b) :: rest => (r p, b.rename r) :: Block.renameProcs r rest

end

/-- a program with every name `x` replaced by `r x`, where it is declared and where it is used -/
def Program.rename (r : String → String) (p : Program) : Program := ⟨p.block.rename r⟩

/-! ## renaming to the same name -/

mutual

theorem Expr.rename_id : ∀ e : Expr, e.rename id = e
  | .mk _ first rest => by rw [Expr.rename, first.rename_id, Expr.tailRename_id rest]

theorem Expr.tailRename_id : ∀ xs : List (AddOp × Term), Expr.tailRename id xs = xs
  | [] => rfl
  | (_, t) :: rest => by rw [Expr.tailRename, t.rename_id, Expr.tailRename_id rest]

theorem Term.rename_id : ∀ t : Term, t.rename id = t
  | .mk first rest => by rw [Term.rename, first.rename_id, Term.tailRename_id rest]

theorem Term.tailRename_id : ∀ xs : List (MulOp × Factor), Term.tailRename id xs = xs
  | [] => rfl
  | (_, f) :: rest => by rw [Term.tailRename, f.rename_id, Term.tailRename_id rest]

theorem Factor.rename_id : ∀ f : Factor, f.rename id = f
  | .name _ => rfl
  | .number _ => rfl
  | .paren e => by rw [Factor.rename, e.rename_id]

end

theorem Condition.rename_id (c : Condition) : c.rename id = c := by
  cases c with
  | odd e => rw [Condition.rename, e.rename_id]
  | compare l op r => rw [Condition.rename, l.rename_id, r.rename_id]

mutual

theorem Statement.rename_id : ∀ s : Statement, s.rename id = s
  | .assign _ e => by rw [Statement.rename, e.rename_id]; rfl
  | .call _ => rfl
  | .block body => by rw [Statement.rename, Statement.renameAll_id body]
  | .ifThen c s => by rw [Statement.rename, c.rename_id, s.rename_id]
  | .whileDo c s => by rw [Statement.rename, c.rename_id, s.rename_id]
  | .print e => by rw [Statement.rename, e.rename_id]

theorem Statement.renameAll_id : ∀ ss : List Statement, Statement.rename.renameAll id ss = ss
  | [] => rfl
  | s :: ss => by rw [Statement.rename.renameAll, s.rename_id, Statement.renameAll_id ss]

end

mutual

theorem Block.rename_id : ∀ b : Block, b.rename id = b
  | .mk consts vars procs body => by
    have hc : renameConsts id consts = consts := by cases consts <;> simp [renameConsts]
    have hv : renameVars id vars = vars := by cases vars <;> simp [renameVars]
    rw [Block.rename, hc, hv, Block.renameProcs_id procs, body.rename_id]

theorem Block.renameProcs_id : ∀ procs : List (String × Block), Block.renameProcs id procs = procs
  | [] => rfl
  | (p, b) :: rest => by rw [Block.renameProcs, b.rename_id, Block.renameProcs_id rest]; rfl

end

theorem Program.rename_id (p : Program) : p.rename id = p := by
  rw [Program.rename, p.block.rename_id]

/-! ## only the names of a program matter -/

/-- two renamings agree on the names among some symbols -/
def AgreeOn (r s : String → String) (xs : List Symbol) : Prop := ∀ x, .name x ∈ xs → r x = s x

theorem AgreeOn.mono {xs ys : List Symbol} (h : AgreeOn r s ys) (hxs : xs ⊆ ys) : AgreeOn r s xs :=
  fun x hx => h x (hxs hx)

theorem AgreeOn.split {xs ys : List Symbol} (h : AgreeOn r s (xs ++ ys)) :
    AgreeOn r s xs ∧ AgreeOn r s ys :=
  ⟨h.mono (List.subset_append_left xs ys), h.mono (List.subset_append_right xs ys)⟩

theorem AgreeOn.tail {x : Symbol} {xs : List Symbol} (h : AgreeOn r s (x :: xs)) : AgreeOn r s xs :=
  h.mono (List.subset_cons_self x xs)

mutual

theorem Expr.rename_congr : ∀ {e : Expr}, AgreeOn r s e.symbols → e.rename r = e.rename s
  | .mk sign first rest, h => by
    have hparts : AgreeOn r s (first.symbols ++ Expr.tailSymbols rest) := by
      cases sign with
      | none => exact h
      | some op => exact h.tail
    rw [Expr.rename, Expr.rename, Term.rename_congr hparts.split.1,
      Expr.tailRename_congr hparts.split.2]

theorem Expr.tailRename_congr : ∀ {xs : List (AddOp × Term)}, AgreeOn r s (Expr.tailSymbols xs) →
    Expr.tailRename r xs = Expr.tailRename s xs
  | [], _ => rfl
  | (_, t) :: rest, h => by
    have hparts := h.tail.split
    rw [Expr.tailRename, Expr.tailRename, Term.rename_congr hparts.1,
      Expr.tailRename_congr hparts.2]

theorem Term.rename_congr : ∀ {t : Term}, AgreeOn r s t.symbols → t.rename r = t.rename s
  | .mk first rest, h => by
    have hparts := h.split
    rw [Term.rename, Term.rename, Factor.rename_congr hparts.1, Term.tailRename_congr hparts.2]

theorem Term.tailRename_congr : ∀ {xs : List (MulOp × Factor)},
    AgreeOn r s (Term.tailSymbols xs) → Term.tailRename r xs = Term.tailRename s xs
  | [], _ => rfl
  | (_, f) :: rest, h => by
    have hparts := h.tail.split
    rw [Term.tailRename, Term.tailRename, Factor.rename_congr hparts.1,
      Term.tailRename_congr hparts.2]

theorem Factor.rename_congr : ∀ {f : Factor}, AgreeOn r s f.symbols → f.rename r = f.rename s
  | .name x, h => congrArg Factor.name (h x List.mem_cons_self)
  | .number _, _ => rfl
  | .paren _, h => congrArg Factor.paren (Expr.rename_congr h.tail.split.1)

end

theorem Condition.rename_congr {c : Condition} (h : AgreeOn r s c.symbols) :
    c.rename r = c.rename s := by
  cases c with
  | odd e => exact congrArg Condition.odd (Expr.rename_congr h.tail)
  | compare l op rhs =>
    have hl := Expr.rename_congr h.split.1
    have hr := Expr.rename_congr h.split.2.tail
    rw [Condition.rename, Condition.rename, hl, hr]

mutual

theorem Statement.rename_congr : ∀ {t : Statement}, AgreeOn r s t.symbols → t.rename r = t.rename s
  | .assign x e, h => by
    rw [Statement.rename, Statement.rename, h x List.mem_cons_self, Expr.rename_congr h.tail.tail]
  | .call p, h => congrArg Statement.call (h p (List.mem_cons_of_mem _ List.mem_cons_self))
  | .block [], _ => rfl
  | .block (t :: ts), h => by
    have hparts := h.tail.split
    have ht := Statement.rename_congr hparts.1
    have hts := Statement.renameAll_congr hparts.2.split.1
    exact congrArg Statement.block (congrArg₂ List.cons ht hts)
  | .ifThen c t, h => by
    have hparts := h.tail.split
    rw [Statement.rename, Statement.rename, Condition.rename_congr hparts.1,
      Statement.rename_congr hparts.2.tail]
  | .whileDo c t, h => by
    have hparts := h.tail.split
    rw [Statement.rename, Statement.rename, Condition.rename_congr hparts.1,
      Statement.rename_congr hparts.2.tail]
  | .print e, h => congrArg Statement.print (Expr.rename_congr h.tail)

theorem Statement.renameAll_congr : ∀ {ts : List Statement},
    AgreeOn r s (Statement.symbols.laterSymbols ts) →
      Statement.rename.renameAll r ts = Statement.rename.renameAll s ts
  | [], _ => rfl
  | _ :: _, h => by
    have hparts := h.tail.split
    exact congrArg₂ List.cons (Statement.rename_congr hparts.1) (Statement.renameAll_congr hparts.2)

end

theorem renameConsts_congr {consts : Option (List (String × Nat))}
    (h : AgreeOn r s (constsSymbols consts)) : renameConsts r consts = renameConsts s consts := by
  cases consts with
  | none => rfl
  | some ds =>
    refine congrArg some (List.map_congr_left fun d hd => ?_)
    have hmem : Symbol.name d.1 ∈ Symbol.commaList (ds.map defineSymbols) :=
      mem_commaList List.mem_cons_self (List.mem_map_of_mem hd)
    rw [h.tail.split.1 d.1 hmem]

theorem renameVars_congr {vars : Option (List String)} (h : AgreeOn r s (varsSymbols vars)) :
    renameVars r vars = renameVars s vars := by
  cases vars with
  | none => rfl
  | some xs =>
    refine congrArg some (List.map_congr_left fun x hx => ?_)
    have hmem : Symbol.name x ∈ Symbol.commaList (xs.map fun y => [.name y]) :=
      mem_commaList List.mem_cons_self (List.mem_map_of_mem hx)
    exact h.tail.split.1 x hmem

mutual

theorem Block.rename_congr : ∀ {b : Block}, AgreeOn r s b.symbols → b.rename r = b.rename s
  | .mk consts vars procs body, h => by
    have hrest := h.split.2.split
    rw [Block.rename, Block.rename, renameConsts_congr h.split.1, renameVars_congr hrest.1,
      Block.renameProcs_congr hrest.2.split.1, Statement.rename_congr hrest.2.split.2]

theorem Block.renameProcs_congr : ∀ {procs : List (String × Block)},
    AgreeOn r s (Block.procSymbols procs) → Block.renameProcs r procs = Block.renameProcs s procs
  | [], _ => rfl
  | (p, b) :: rest, h => by
    have hparts := h.tail.tail.tail.split
    rw [Block.renameProcs, Block.renameProcs, h p (List.mem_cons_of_mem _ List.mem_cons_self),
      Block.rename_congr hparts.1, Block.renameProcs_congr hparts.2.tail]

end

/-- programs are renamed alike by renamings that agree on their names -/
theorem Program.rename_congr {p : Program} (h : AgreeOn r s p.symbols) :
    p.rename r = p.rename s := by
  rw [Program.rename, Program.rename, Block.rename_congr h.split.1]

/-! ## symbols of a renamed program -/

def Symbol.rename (r : String → String) : Symbol → Symbol
  | .name x => .name (r x)
  | .number n => .number n
  | .sign k => .sign k

mutual

theorem Expr.symbols_rename : ∀ e : Expr, (e.rename r).symbols = e.symbols.map (Symbol.rename r)
  | .mk none first rest => by
    simp only [Expr.rename, Expr.symbols, first.symbols_rename, Expr.tailSymbols_rename rest,
      List.map_append]
  | .mk (some _) first rest => by
    simp only [Expr.rename, Expr.symbols, first.symbols_rename, Expr.tailSymbols_rename rest,
      List.map_cons, List.map_append, Symbol.rename]

theorem Expr.tailSymbols_rename : ∀ xs : List (AddOp × Term),
    Expr.tailSymbols (Expr.tailRename r xs) = (Expr.tailSymbols xs).map (Symbol.rename r)
  | [] => rfl
  | (_, t) :: rest => by
    simp only [Expr.tailRename, Expr.tailSymbols, t.symbols_rename, Expr.tailSymbols_rename rest,
      List.map_cons, List.map_append, Symbol.rename]

theorem Term.symbols_rename : ∀ t : Term, (t.rename r).symbols = t.symbols.map (Symbol.rename r)
  | .mk first rest => by
    simp only [Term.rename, Term.symbols, first.symbols_rename, Term.tailSymbols_rename rest,
      List.map_append]

theorem Term.tailSymbols_rename : ∀ xs : List (MulOp × Factor),
    Term.tailSymbols (Term.tailRename r xs) = (Term.tailSymbols xs).map (Symbol.rename r)
  | [] => rfl
  | (_, f) :: rest => by
    simp only [Term.tailRename, Term.tailSymbols, f.symbols_rename, Term.tailSymbols_rename rest,
      List.map_cons, List.map_append, Symbol.rename]

theorem Factor.symbols_rename : ∀ f : Factor,
    (f.rename r).symbols = f.symbols.map (Symbol.rename r)
  | .name _ => rfl
  | .number _ => rfl
  | .paren e => by
    simp only [Factor.rename, Factor.symbols, e.symbols_rename, List.map_cons, List.map_append,
      Symbol.rename, List.map_nil]

end

theorem Condition.symbols_rename (c : Condition) :
    (c.rename r).symbols = c.symbols.map (Symbol.rename r) := by
  cases c with
  | odd e =>
    simp only [Condition.rename, Condition.symbols, e.symbols_rename, List.map_cons,
      Symbol.ofKeyword, Symbol.rename]
  | compare l op rhs =>
    simp only [Condition.rename, Condition.symbols, l.symbols_rename, rhs.symbols_rename,
      List.map_append, List.map_cons, Symbol.rename]

mutual

theorem Statement.symbols_rename : ∀ t : Statement,
    (t.rename r).symbols = t.symbols.map (Symbol.rename r)
  | .assign _ e => by
    simp only [Statement.rename, Statement.symbols, e.symbols_rename, List.map_cons, Symbol.rename]
  | .call _ => rfl
  | .block [] => rfl
  | .block (t :: ts) => by
    simp only [Statement.rename, Statement.rename.renameAll, Statement.symbols, t.symbols_rename,
      Statement.laterSymbols_rename ts, List.map_cons, List.map_append, Symbol.rename,
      Symbol.ofKeyword, List.map_nil]
  | .ifThen c t => by
    simp only [Statement.rename, Statement.symbols, c.symbols_rename, t.symbols_rename,
      List.map_cons, List.map_append, Symbol.rename, Symbol.ofKeyword]
  | .whileDo c t => by
    simp only [Statement.rename, Statement.symbols, c.symbols_rename, t.symbols_rename,
      List.map_cons, List.map_append, Symbol.rename, Symbol.ofKeyword]
  | .print e => by
    simp only [Statement.rename, Statement.symbols, e.symbols_rename, List.map_cons, Symbol.rename]

theorem Statement.laterSymbols_rename : ∀ ts : List Statement,
    Statement.symbols.laterSymbols (Statement.rename.renameAll r ts) =
      (Statement.symbols.laterSymbols ts).map (Symbol.rename r)
  | [] => rfl
  | t :: ts => by
    simp only [Statement.rename.renameAll, Statement.symbols.laterSymbols, t.symbols_rename,
      Statement.laterSymbols_rename ts, List.map_cons, List.map_append, Symbol.rename]

end

theorem map_commaList (xss : List (List Symbol)) :
    (Symbol.commaList xss).map (Symbol.rename r) =
      Symbol.commaList (xss.map (List.map (Symbol.rename r))) := by
  fun_induction Symbol.commaList xss with
  | case1 => rfl
  | case2 xs => rfl
  | case3 xs ys yss ih =>
    rw [List.map_append, List.map_cons, ih]
    rfl

theorem constsSymbols_rename (consts : Option (List (String × Nat))) :
    constsSymbols (renameConsts r consts) = (constsSymbols consts).map (Symbol.rename r) := by
  cases consts with
  | none => rfl
  | some ds =>
    simp only [renameConsts, Option.map_some, constsSymbols, List.map_cons, List.map_append,
      map_commaList, List.map_map]
    rfl

theorem varsSymbols_rename (vars : Option (List String)) :
    varsSymbols (renameVars r vars) = (varsSymbols vars).map (Symbol.rename r) := by
  cases vars with
  | none => rfl
  | some xs =>
    simp only [renameVars, Option.map_some, varsSymbols, List.map_cons, List.map_append,
      map_commaList, List.map_map]
    rfl

mutual

theorem Block.symbols_rename : ∀ b : Block,
    (b.rename r).symbols = b.symbols.map (Symbol.rename r)
  | .mk consts vars procs body => by
    simp only [Block.rename, Block.symbols, constsSymbols_rename, varsSymbols_rename,
      Block.procSymbols_rename procs, body.symbols_rename, List.map_append]

theorem Block.procSymbols_rename : ∀ procs : List (String × Block),
    Block.procSymbols (Block.renameProcs r procs) =
      (Block.procSymbols procs).map (Symbol.rename r)
  | [] => rfl
  | (p, b) :: rest => by
    simp only [Block.renameProcs, Block.procSymbols, b.symbols_rename,
      Block.procSymbols_rename rest, List.map_cons, List.map_append, Symbol.rename,
      Symbol.ofKeyword]

end

/-- **Renaming goes symbol by symbol.** -/
theorem Program.symbols_rename (p : Program) :
    (p.rename r).symbols = p.symbols.map (Symbol.rename r) := by
  simp only [Program.rename, Program.symbols, p.block.symbols_rename, List.map_append,
    List.map_cons, List.map_nil, Symbol.rename]

/-! ## shapes -/

mutual

theorem Statement.Shaped.rename : ∀ {t : Statement}, t.Shaped → (t.rename r).Shaped
  | .assign _ _, _ => trivial
  | .call _, _ => trivial
  | .block [], h => absurd rfl h.1
  | .block (_ :: _), h => ⟨List.cons_ne_nil _ _, Statement.Shaped.rename h.2.1,
      Statement.shapedAll_rename h.2.2⟩
  | .ifThen _ t, h => Statement.Shaped.rename (t := t) h
  | .whileDo _ t, h => Statement.Shaped.rename (t := t) h
  | .print _, _ => trivial

theorem Statement.shapedAll_rename : ∀ {ts : List Statement}, Statement.Shaped.shapedAll ts →
    Statement.Shaped.shapedAll (Statement.rename.renameAll r ts)
  | [], _ => trivial
  | _ :: _, h => ⟨Statement.Shaped.rename h.1, Statement.shapedAll_rename h.2⟩

end

mutual

theorem Block.Shaped.rename : ∀ {b : Block}, b.Shaped → (b.rename r).Shaped
  | .mk consts vars procs body, h => by
    have hvars : renameVars r vars ≠ some [] := by
      have hne := h.1
      rcases vars with _ | _ | _
      · exact nofun
      · exact absurd rfl hne
      · exact nofun
    exact ⟨hvars, Block.shapedProcs_rename h.2.1, h.2.2.rename⟩

theorem Block.shapedProcs_rename : ∀ {procs : List (String × Block)}, Block.shapedProcs procs →
    Block.shapedProcs (Block.renameProcs r procs)
  | [], _ => trivial
  | _ :: _, h => ⟨Block.Shaped.rename h.1, Block.shapedProcs_rename h.2⟩

end

theorem Program.Shaped.rename {p : Program} (h : p.Shaped)
    (hr : ∀ x, Identifier x → Identifier (r x)) : (p.rename r).Shaped := by
  refine ⟨fun x hx => ?_, h.block.rename⟩
  rw [Program.symbols_rename] at hx
  obtain ⟨y, hy, heq⟩ := List.mem_map.1 hx
  cases y with
  | name y =>
    cases heq
    exact hr y (h.names y hy)
  | number n => cases heq
  | sign k => cases heq

end Pl0Kit
