import Mathlib.Data.List.Forall2
import Pl0Kit.Proofs.Execution
import Pl0Kit.Proofs.Spelling

/-!
# Names that are declared

A program is `Declared` if each name that is read, assigned to or called is declared as such in the
block of its use or around it.  The evaluator looks for names in all open frames, so what it finds
may have been declared elsewhere; but it does find something.  While the program runs, the frames
fit it (`Program.Fits`): an entry of a frame has a name that some block of the program declares so,
and a procedure finds in the frames below what its block needs.  Frames only ever get more names
(`Frames.Grow`).

* `Fits.value`, `computes_expr`  names have values in such frames, and so have expressions;
* `Fits.update`                  assignments keep the frames fitting;
* `fits_opened`                  and so do the declarations of a block.
-/

namespace Pl0Kit

/-! ## names and their declarations -/

/-- what a statement needs: a name to read, to assign to or to call, or a comparison -/
inductive Use where
  | read (x : String)
  | assign (x : String)
  | call (q : String)
  | compare (op : RelOp)
  deriving DecidableEq

/-- the names among the symbols of an expression -/
def readsOf (xs : List Symbol) : List Use :=
  xs.filterMap fun
    | .name x => some (.read x)
    | _ => none

theorem read_mem_readsOf {xs : List Symbol} {x : String} (h : .name x ∈ xs) :
    .read x ∈ readsOf xs :=
  List.mem_filterMap.2 ⟨.name x, h, rfl⟩

def Condition.uses : Condition → List Use
  | .odd e => readsOf e.symbols
  | .compare l op r => .compare op :: (readsOf l.symbols ++ readsOf r.symbols)

def Statement.uses : Statement → List Use
  | .assign x e => .assign x :: readsOf e.symbols
  | .call q => [.call q]
  | .block ss => allUses ss
  | .ifThen c s => c.uses ++ s.uses
  | .whileDo c s => c.uses ++ s.uses
  | .print e => readsOf e.symbols
where
  allUses : List Statement → List Use
    | [] => []
    | s :: ss => s.uses ++ allUses ss

namespace Block

/-- the constants and variables of a block -/
def valueNames : Block → List String
  | .mk consts vars _ _ => (consts.getD []).map Prod.fst ++ vars.getD []

def varNames : Block → List String
  | .mk _ vars _ _ => vars.getD []

/-- a block declares what is used; a comparison needs no declaration -/
def Declares (b : Block) : Use → Prop
  | .read x => x ∈ b.valueNames
  | .assign x => x ∈ b.varNames
  | .call q => q ∈ b.procs.map Prod.fst
  | .compare _ => True

instance (b : Block) : DecidablePred b.Declares
  | .read x => inferInstanceAs (Decidable (x ∈ b.valueNames))
  | .assign x => inferInstanceAs (Decidable (x ∈ b.varNames))
  | .call q => inferInstanceAs (Decidable (q ∈ b.procs.map Prod.fst))
  | .compare _ => inferInstanceAs (Decidable True)

/-- the entries that the declarations of a block make in a table -/
def entries : Block → EntryKind → List (String × Value)
  | .mk consts _ _ _, .const => (consts.getD []).map fun d => (d.1, .int d.2)
  | .mk _ vars _ _, .var => (vars.getD []).map fun x => (x, .int 0)
  | .mk _ _ procs _, .proc => procs.map fun q => (q.1, .procedure (.str q.1) q.2.toValue)

/-- all names that a block uses, also in its procedures, are declared in the block of the use or
around it, where `outer` are the blocks around this one -/
inductive Declared : List Block → Block → Prop
  | mk {outer : List Block} {b : Block} :
      (∀ u ∈ b.body.uses, ∃ c ∈ b :: outer, c.Declares u) →
      (∀ q ∈ b.procs, Declared (b :: outer) q.2) → Declared outer b

mutual

/-- a block and all blocks inside it -/
def blocks : Block → List Block
  | .mk consts vars procs body => .mk consts vars procs body :: innerBlocks procs

def innerBlocks : List (String × Block) → List Block
  | [] => []
  | (_, b) :: rest => b.blocks ++ innerBlocks rest

end

theorem mem_blocks (b : Block) : b ∈ b.blocks := by
  cases b
  exact List.mem_cons_self

theorem subset_innerBlocks {procs : List (String × Block)} {q : String × Block} (hq : q ∈ procs) :
    q.2.blocks ⊆ innerBlocks procs := by
  induction procs with
  | nil => cases hq
  | cons r procs ih =>
    rw [innerBlocks]
    rcases List.mem_cons.1 hq with rfl | hq
    · exact List.subset_append_left _ _
    · exact List.subset_append_of_subset_right _ (ih hq)

theorem subset_blocks {b : Block} {q : String × Block} (hq : q ∈ b.procs) :
    q.2.blocks ⊆ b.blocks := by
  obtain ⟨consts, vars, procs, body⟩ := b
  exact List.subset_cons_of_subset _ (subset_innerBlocks hq)

end Block

namespace Program

/-- every name of a program is declared where it is used -/
def Declared (p : Program) : Prop := p.block.Declared []

def uses (p : Program) : List Use := p.block.blocks.flatMap fun b => b.body.uses

/-- some block of a program declares what is used -/
def Declares (p : Program) (u : Use) : Prop := ∃ b ∈ p.block.blocks, b.Declares u

instance (p : Program) (u : Use) : Decidable (p.Declares u) :=
  inferInstanceAs (Decidable (∃ b ∈ p.block.blocks, b.Declares u))

/-- a name is called in a program and is a constant or a variable of it, or it is read and is a
procedure -/
def Mixes (p : Program) (x : String) : Prop :=
  .call x ∈ p.uses ∧ p.Declares (.read x) ∨ .read x ∈ p.uses ∧ p.Declares (.call x)

/-- why a run of a program with declared names may stop: its budget runs out, it compares for
equality or inequality, or it meets a name that has been used for two things -/
inductive Faults (p : Program) : Fault → Prop
  | budget : Faults p .outOfFuel
  | comparison {op : RelOp} : op = .e ∨ op = .ne → .compare op ∈ p.uses →
      Faults p (.unknownOperator ("Unknown comparison operator " ++ op.word))
  | kind {x text : String} : p.Mixes x → Faults p (.wrongKind text)
  | type {x : String} : p.Mixes x → Faults p .wrongType

/-- the values of constants and variables: numbers, and procedures only if names are used for two
things -/
inductive Holds (p : Program) : Value → Prop
  | int (n : Int) : Holds p (.int n)
  | procedure {x : String} (q b : Value) : p.Mixes x → Holds p (.procedure q b)

/-- what an expression may come to -/
def Computes (p : Program) : Except Fault Value → Prop
  | .ok v => p.Holds v
  | .error e => p.Faults e

end Program

/-! ## frames -/

/-- the second frame has all names of the first one, as things of the same kinds -/
def Frame.Grows (f g : Frame) : Prop :=
  ∀ kind x, ((f.table kind).get? (.str x)).isSome → ((g.table kind).get? (.str x)).isSome

theorem Frame.table_empty (kind : EntryKind) : Frame.table {} kind = [] := by
  cases kind <;> rfl

theorem Frame.grows_empty (f : Frame) : Frame.Grows {} f := by
  intro kind x h
  rw [Frame.table_empty] at h
  cases h

theorem Frame.grows_enter (f : Frame) (kind : EntryKind) (x : String) (v : Value) :
    f.Grows (f.enter kind (.str x) v) := by
  intro kind' y h
  rw [Frame.table_enter]
  split
  · rename_i hkind
    rw [Table.get?_put, ← hkind]
    split
    · rfl
    · exact h
  · exact h

namespace Frames

/-- the same frames, perhaps with more names -/
def Grow (fs gs : Frames) : Prop := List.Forall₂ Frame.Grows fs gs

theorem Grow.refl (fs : Frames) : Grow fs fs := List.forall₂_same.2 fun _ _ _ _ h => h

theorem Grow.trans {fs gs hs : Frames} (h : Grow fs gs) (h' : Grow gs hs) : Grow fs hs := by
  induction h generalizing hs with
  | nil => exact h'
  | cons hf _ ih =>
    cases h' with
    | cons hg hrest => exact .cons (fun kind x hx => hg kind x (hf kind x hx)) (ih hrest)

theorem grow_update (fs : Frames) (n : Nat) (x : String) (v : Value) :
    Grow fs (fs.modify n (·.update (.str x) v)) := by
  induction fs generalizing n with
  | nil => cases n <;> exact .nil
  | cons f fs ih =>
    cases n with
    | zero => exact .cons (f.grows_enter .var x v) (Grow.refl fs)
    | succ n => exact .cons (fun _ _ h => h) (ih n)

/-- some frame has the name `x` for a thing of this kind -/
def Knows (fs : Frames) (kind : EntryKind) (x : String) : Prop :=
  ∃ f ∈ fs, ((f.table kind).get? (.str x)).isSome

/-- a name that is used so is in the frames, as a thing of the right kind -/
def Provides (fs : Frames) : Use → Prop
  | .read x => fs.Knows .const x ∨ fs.Knows .var x
  | .assign x => fs.Knows .var x
  | .call q => fs.Knows .proc q
  | .compare _ => True

/-- what the frames `fs` know is known in `gs` as well -/
def Within (fs gs : Frames) : Prop := ∀ kind x, fs.Knows kind x → gs.Knows kind x

theorem Grow.within {fs gs : Frames} (h : Grow fs gs) : Within fs gs := by
  rintro kind x ⟨f, hf, hx⟩
  induction h with
  | nil => cases hf
  | @cons f' g fs gs hfg _ ih =>
    rcases List.mem_cons.1 hf with rfl | hf
    · exact ⟨g, List.mem_cons_self, hfg kind x hx⟩
    · obtain ⟨g', hg', hx'⟩ := ih hf
      exact ⟨g', List.mem_cons_of_mem g hg', hx'⟩

theorem within_cons (f : Frame) (fs : Frames) : Within fs (f :: fs) := fun _ _ ⟨g, hg, hx⟩ =>
  ⟨g, List.mem_cons_of_mem f hg, hx⟩

theorem Provides.mono {fs gs : Frames} (h : Within fs gs) {u : Use} (hu : fs.Provides u) :
    gs.Provides u := by
  cases u with
  | read x => exact hu.imp (h _ x) (h _ x)
  | assign x => exact h _ x hu
  | call q => exact h _ q hu
  | compare op => trivial

/-- a known name is found, if perhaps as something else -/
theorem find?_of_knows {fs : Frames} {kind : EntryKind} {x : String} (h : fs.Knows kind x) :
    ∃ r, fs.find? (.str x) = some r := by
  obtain ⟨f, hf, hx⟩ := h
  induction fs with
  | nil => cases hf
  | cons g fs ih =>
    rw [find?]
    cases hg : g.lookup (.str x) with
    | some r => exact ⟨_, rfl⟩
    | none =>
      have hne : f ≠ g := by
        rintro rfl
        rw [Frame.get?_of_lookup_none hg kind] at hx
        cases hx
      obtain ⟨r, hr⟩ := ih ((List.mem_cons.1 hf).resolve_left hne)
      exact ⟨_, by rw [hr]; rfl⟩

/-- what some blocks declare is in the frames -/
def Serve (fs : Frames) (outer : List Block) : Prop :=
  ∀ b ∈ outer, ∀ u, b.Declares u → fs.Provides u

theorem Serve.mono {fs gs : Frames} {outer : List Block} (h : fs.Serve outer) (hw : Within fs gs) :
    gs.Serve outer := fun b hb u hu => (h b hb u hu).mono hw

end Frames

namespace Program

/-- a procedure of the program, with what is declared around its block in the frames -/
def Callable (p : Program) (fs : Frames) (v : Value) : Prop :=
  ∃ q b outer, v = .procedure (.str q) (Block.toValue b) ∧ b.blocks ⊆ p.block.blocks ∧
    b.Declared outer ∧ fs.Serve outer

/-- an entry that a frame may have: its name is declared so somewhere -/
def Entry (p : Program) (fs : Frames) (x : String) (v : Value) : EntryKind → Prop
  | .proc => p.Declares (.call x) ∧ p.Callable fs v
  | _ => p.Declares (.read x) ∧ p.Holds v

theorem Entry.mono {p : Program} {fs gs : Frames} (h : Frames.Within fs gs) {kind : EntryKind}
    {x : String} {v : Value} (hx : p.Entry fs x v kind) : p.Entry gs x v kind := by
  cases kind with
  | const | var => exact hx
  | proc =>
    obtain ⟨hdecl, q, b, outer, hv, hb, hscoped, hserve⟩ := hx
    exact ⟨hdecl, q, b, outer, hv, hb, hscoped, hserve.mono h⟩

/-- the frames of a run of a program -/
def Fits (p : Program) : Frames → Prop
  | [] => True
  | f :: fs =>
    (∀ kind x v, (f.table kind).get? (.str x) = some v → p.Entry (f :: fs) x v kind) ∧ p.Fits fs

namespace Fits

variable {p : Program} {fs : Frames} {x : String} {v : Value}

theorem push (h : p.Fits fs) : p.Fits ({} :: fs) := by
  refine ⟨fun kind x v hx => ?_, h⟩
  rw [Frame.table_empty] at hx
  cases hx

theorem entry (h : p.Fits fs) {f : Frame} (hf : f ∈ fs) {kind : EntryKind}
    (hx : (f.table kind).get? (.str x) = some v) : p.Entry fs x v kind := by
  induction fs with
  | nil => cases hf
  | cons g fs ih =>
    rcases List.mem_cons.1 hf with rfl | hf
    · exact h.1 kind x v hx
    · exact (ih h.2 hf).mono (Frames.within_cons g fs)

theorem find? (h : p.Fits fs) {kind : EntryKind} {n : Nat}
    (hx : fs.find? (.str x) = some (kind, v, n)) : p.Entry fs x v kind := by
  obtain ⟨f, hf, hl⟩ := Frames.lookup_of_find? hx
  exact h.entry hf (Frame.get?_of_lookup hl)

theorem declares_of_knows (h : p.Fits fs) (hx : fs.Knows .var x) : p.Declares (.read x) := by
  obtain ⟨f, hf, hsome⟩ := hx
  obtain ⟨v, hv⟩ := Option.isSome_iff_exists.1 hsome
  have hentry : p.Entry fs x v .var := h.entry hf hv
  exact hentry.1

/-- a variable of the program gets another value, in any frame -/
theorem update (h : p.Fits fs) (hx : p.Declares (.read x)) (hv : p.Holds v) (n : Nat) :
    p.Fits (fs.modify n (·.update (.str x) v)) := by
  induction fs generalizing n with
  | nil => cases n <;> exact h
  | cons f fs ih =>
    cases n with
    | zero =>
      refine ⟨fun kind y w hy => ?_, h.2⟩
      have hw : Frames.Within (f :: fs) (f.update (.str x) v :: fs) :=
        (Frames.grow_update (f :: fs) 0 x v).within
      have htable : (f.update (.str x) v).table kind =
          if kind = .var then (f.table .var).put (.str x) v else f.table kind :=
        f.table_enter .var kind (.str x) v
      rw [htable] at hy
      split at hy
      · rename_i hkind
        subst hkind
        rw [Table.get?_put] at hy
        split at hy
        · rename_i hyx
          cases hy
          subst hyx
          exact ⟨hx, hv⟩
        · exact (h.1 .var y w hy).mono hw
      · exact (h.1 kind y w hy).mono hw
    | succ n =>
      refine ⟨fun kind y w hy => ?_, ih h.2 n⟩
      exact (h.1 kind y w hy).mono (Frames.grow_update (f :: fs) (n + 1) x v).within

/-- a name that may be read has a value -/
theorem value (h : p.Fits fs) (hread : fs.Provides (.read x)) (hx : .read x ∈ p.uses) :
    p.Computes (fs.value x) := by
  obtain ⟨⟨kind, v, n⟩, hr⟩ := hread.elim Frames.find?_of_knows Frames.find?_of_knows
  rw [Frames.value, Frames.seen, Frames.find_str, hr]
  have hentry := h.find? hr
  cases kind with
  | const | var => exact hentry.2
  | proc =>
    obtain ⟨hdecl, q, b, -, rfl, -⟩ := hentry
    exact .procedure _ _ (.inr ⟨hx, hdecl⟩)

end Fits

end Program

/-! ## expressions -/

namespace Program

variable {p : Program}

theorem Computes.bind {r : Except Fault Value} {f : Value → Except Fault Value} (h : p.Computes r)
    (hf : ∀ v, p.Holds v → p.Computes (f v)) : p.Computes (r >>= f) := by
  cases r with
  | ok v => exact hf v h
  | error e => exact h

/-- numbers are added, subtracted and multiplied, and procedures are refused -/
theorem Holds.arithmetic {a b : Value} (ha : p.Holds a) (hb : p.Holds b) :
    p.Computes (a.add b) ∧ p.Computes (a.sub b) ∧ p.Computes (a.mul b) := by
  cases ha with
  | int m =>
    cases hb with
    | int n => exact ⟨.int _, .int _, .int _⟩
    | procedure _ _ hx => exact ⟨.type hx, .type hx, .type hx⟩
  | procedure _ _ hx =>
    cases hb with
    | int | procedure => exact ⟨.type hx, .type hx, .type hx⟩

theorem computes_add (op : AddOp) {a b : Value} (ha : p.Holds a) (hb : p.Holds b) :
    p.Computes (op.result a b) := by
  cases op with
  | plus => exact (ha.arithmetic hb).1
  | minus => exact (ha.arithmetic hb).2.1

theorem computes_mul (op : MulOp) {a b : Value} (ha : p.Holds a) (hb : p.Holds b) :
    p.Computes (op.result a b) := by
  cases op with
  | times => exact (ha.arithmetic hb).2.2
  | divide => exact ha

theorem computes_sign (sign : Option AddOp) {a : Value} (ha : p.Holds a) :
    p.Computes (signResult sign a) := by
  rcases sign with _ | _ | _
  · exact ha
  · exact ha
  · exact (ha.arithmetic (.int (-1))).2.2

/-- the names among some symbols have values -/
def Values (p : Program) (ρ : String → Except Fault Value) (xs : List Symbol) : Prop :=
  ∀ x, Symbol.name x ∈ xs → p.Computes (ρ x)

section Values

variable {ρ : String → Except Fault Value} {xs ys : List Symbol}

theorem Values.split (h : p.Values ρ (xs ++ ys)) : p.Values ρ xs ∧ p.Values ρ ys :=
  ⟨fun x hx => h x (List.mem_append_left ys hx), fun x hx => h x (List.mem_append_right xs hx)⟩

theorem Values.tail {s : Symbol} (h : p.Values ρ (s :: xs)) : p.Values ρ xs :=
  fun x hx => h x (List.mem_cons_of_mem s hx)

mutual

theorem computes_expr : ∀ (e : Expr), p.Values ρ e.symbols → p.Computes (e.result ρ)
  | .mk sign first rest, h => by
    have hparts : p.Values ρ (first.symbols ++ Expr.tailSymbols rest) := by
      cases sign with
      | none => exact h
      | some op => exact h.tail
    rw [Expr.result]
    refine (computes_term first hparts.split.1).bind fun a ha => ?_
    exact (computes_terms rest ha hparts.split.2).bind fun b hb => computes_sign sign hb

theorem computes_terms : ∀ (rest : List (AddOp × Term)) {total : Value}, p.Holds total →
    p.Values ρ (Expr.tailSymbols rest) → p.Computes (Expr.resultFrom ρ total rest)
  | [], _, htotal, _ => htotal
  | (op, x) :: rest, _, htotal, h => by
    rw [Expr.resultFrom]
    refine (computes_term x h.tail.split.1).bind fun a ha => ?_
    exact (computes_add op htotal ha).bind fun b hb => computes_terms rest hb h.tail.split.2

theorem computes_term : ∀ (x : Term), p.Values ρ x.symbols → p.Computes (x.result ρ)
  | .mk first rest, h => by
    rw [Term.result]
    exact (computes_factor first h.split.1).bind fun a ha => computes_factors rest ha h.split.2

theorem computes_factors : ∀ (rest : List (MulOp × Factor)) {total : Value}, p.Holds total →
    p.Values ρ (Term.tailSymbols rest) → p.Computes (Term.resultFrom ρ total rest)
  | [], _, htotal, _ => htotal
  | (op, x) :: rest, _, htotal, h => by
    rw [Term.resultFrom]
    refine (computes_factor x h.tail.split.1).bind fun a ha => ?_
    exact (computes_mul op htotal ha).bind fun b hb => computes_factors rest hb h.tail.split.2

theorem computes_factor : ∀ (x : Factor), p.Values ρ x.symbols → p.Computes (x.result ρ)
  | .name x, h => h x List.mem_cons_self
  | .number n, _ => .int n
  | .paren e, h => computes_expr e h.tail.split.1

end

end Values

end Program

namespace Evaluator

open Generator

/-! ## frames of blocks -/

variable {p : Program} {fs : Frames} {v : Value}

/-- a frame with entries put into one of its tables, one after the other -/
def enterAll (kind : EntryKind) (f : Frame) (es : List (String × Value)) : Frame :=
  es.foldl (fun f e => f.enter kind (.str e.1) e.2) f

theorem get?_enterAll {kind kind' : EntryKind} {f : Frame} {es : List (String × Value)} {x : String}
    (h : ((enterAll kind f es).table kind').get? (.str x) = some v) :
    (f.table kind').get? (.str x) = some v ∨ kind' = kind ∧ (x, v) ∈ es := by
  induction es generalizing f with
  | nil => exact .inl h
  | cons e es ih =>
    rcases ih h with hf | ⟨hkind, hes⟩
    · rw [Frame.table_enter] at hf
      split at hf
      · rename_i hkind
        rw [Table.get?_put] at hf
        split at hf
        · rename_i hx
          cases hf
          exact .inr ⟨hkind, hx ▸ List.mem_cons_self⟩
        · exact .inl (hkind ▸ hf)
      · exact .inl hf
    · exact .inr ⟨hkind, List.mem_cons_of_mem e hes⟩

theorem grows_enterAll (kind : EntryKind) (f : Frame) (es : List (String × Value)) :
    f.Grows (enterAll kind f es) := by
  induction es generalizing f with
  | nil => exact fun _ _ h => h
  | cons e es ih => exact fun kind' x hx => ih _ kind' x (f.grows_enter kind e.1 e.2 kind' x hx)

theorem enterAll_knows (kind : EntryKind) (f : Frame) {es : List (String × Value)}
    {e : String × Value} (he : e ∈ es) :
    (((enterAll kind f es).table kind).get? (.str e.1)).isSome := by
  induction es generalizing f with
  | nil => cases he
  | cons d es ih =>
    rcases List.mem_cons.1 he with rfl | he
    · refine grows_enterAll kind _ es kind e.1 ?_
      rw [Frame.table_enter, if_pos rfl, Table.get?_put, if_pos rfl]
      rfl
    · exact ih _ he

theorem opened_eq (b : Block) : opened {} b =
    enterAll .proc (enterAll .var (enterAll .const {} (b.entries .const)) (b.entries .var))
      (b.entries .proc) := by
  obtain ⟨consts, vars, procs, body⟩ := b
  simp only [opened, enterAll, Block.entries, List.foldl_map]
  rfl

theorem get?_opened {b : Block} {kind : EntryKind} {x : String}
    (h : ((opened {} b).table kind).get? (.str x) = some v) : (x, v) ∈ b.entries kind := by
  rw [opened_eq] at h
  rcases get?_enterAll h with h | ⟨rfl, hmem⟩
  · rcases get?_enterAll h with h | ⟨rfl, hmem⟩
    · rcases get?_enterAll h with h | ⟨rfl, hmem⟩
      · rw [Frame.table_empty] at h
        cases h
      · exact hmem
    · exact hmem
  · exact hmem

theorem opened_knows {b : Block} {kind : EntryKind} {e : String × Value} (he : e ∈ b.entries kind) :
    (((opened {} b).table kind).get? (.str e.1)).isSome := by
  rw [opened_eq]
  cases kind with
  | proc => exact enterAll_knows _ _ he
  | var => exact grows_enterAll _ _ _ _ _ (enterAll_knows _ _ he)
  | const => exact grows_enterAll _ _ _ _ _ (grows_enterAll _ _ _ _ _ (enterAll_knows _ _ he))

/-- a frame that was opened for a block has what the block declares -/
theorem opened_provides {b : Block} {u : Use} (h : b.Declares u) (fs : Frames) :
    Frames.Provides (opened {} b :: fs) u := by
  have hknows : ∀ kind {e}, e ∈ b.entries kind → Frames.Knows (opened {} b :: fs) kind e.1 :=
    fun kind e he => ⟨_, List.mem_cons_self, opened_knows he⟩
  obtain ⟨consts, vars, procs, body⟩ := b
  cases u with
  | read x =>
    rcases List.mem_append.1 h with hc | hv
    · obtain ⟨d, hd, rfl⟩ := List.mem_map.1 hc
      exact .inl (hknows .const (List.mem_map_of_mem hd))
    · exact .inr (hknows .var (List.mem_map_of_mem hv))
  | assign x => exact hknows .var (List.mem_map_of_mem h)
  | call q =>
    obtain ⟨r, hr, rfl⟩ := List.mem_map.1 h
    exact hknows .proc (List.mem_map_of_mem hr)
  | compare op => trivial

theorem serve_opened {b : Block} {outer : List Block} (h : fs.Serve outer) :
    Frames.Serve (opened {} b :: fs) (b :: outer) := by
  intro c hc u hu
  rcases List.mem_cons.1 hc with rfl | hc
  · exact opened_provides hu fs
  · exact (h c hc u hu).mono (Frames.within_cons _ fs)

/-- after the declarations of a block the frames fit again -/
theorem fits_opened {b : Block} {outer : List Block} (hfits : p.Fits fs) (hserve : fs.Serve outer)
    (hb : b.blocks ⊆ p.block.blocks) (hscoped : b.Declared outer) : p.Fits (opened {} b :: fs) := by
  refine ⟨fun kind x v hx => ?_, hfits⟩
  have hentry := get?_opened hx
  have hdecl : ∀ {u}, b.Declares u → p.Declares u := fun hu => ⟨b, hb b.mem_blocks, hu⟩
  have hinner := serve_opened (b := b) hserve
  obtain ⟨-, hprocs⟩ := hscoped
  cases kind with
  | const =>
    obtain ⟨consts, vars, procs, body⟩ := b
    obtain ⟨d, hd, he⟩ := List.mem_map.1 hentry
    cases he
    exact ⟨hdecl (List.mem_append_left _ (List.mem_map_of_mem hd)), .int d.2⟩
  | var =>
    obtain ⟨consts, vars, procs, body⟩ := b
    obtain ⟨y, hy, he⟩ := List.mem_map.1 hentry
    cases he
    exact ⟨hdecl (List.mem_append_right _ hy), .int 0⟩
  | proc =>
    obtain ⟨q, hq, he⟩ : ∃ q ∈ b.procs, (q.1, Value.procedure (.str q.1) q.2.toValue) = (x, v) := by
      obtain ⟨consts, vars, procs, body⟩ := b
      exact List.mem_map.1 hentry
    cases he
    exact ⟨hdecl (List.mem_map_of_mem hq), q.1, q.2, _, rfl,
      List.Subset.trans (Block.subset_blocks hq) hb, hprocs q hq, hinner⟩

end Evaluator

end Pl0Kit
