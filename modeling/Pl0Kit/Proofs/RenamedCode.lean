import Mathlib.Logic.Equiv.Basic
import Pl0Kit.Proofs.Emission
import Pl0Kit.Proofs.LabelNames
import Pl0Kit.Proofs.Renaming

/-!
# Code of renamed programs

A program under two renamings has code that differs in the names of labels only, provided both
renamings keep different names different.  The frames that are open at one place of the two programs
know the same names, at the renamed keys: constants with the same number, variables and procedures
with labels of the same number (`FrameAlike`).  Taking the identity for one of the renamings gives
both directions of `renamed_program_agrees`.
-/

namespace Pl0Kit.Generator

open Machine

/-! ## code up to the names of labels -/

/-- code that differs in the names of labels only -/
def CodeAlike (es ds : List Event) : Prop := List.Forall₂ Item.Alike (itemsOf es) (itemsOf ds)

namespace CodeAlike

variable {es ds es' ds' : List Event} {l k : String}

theorem refl (es : List Event) : CodeAlike es es :=
  List.forall₂_same.2 fun x _ => Item.Alike.refl x

theorem append (h : CodeAlike es ds) (h' : CodeAlike es' ds') :
    CodeAlike (es ++ es') (ds ++ ds') := by
  rw [CodeAlike, itemsOf_append, itemsOf_append]
  exact List.rel_append h h'

theorem cons {e d : Event} (h : CodeAlike [e] [d]) (h' : CodeAlike es ds) :
    CodeAlike (e :: es) (d :: ds) := append h h'

theorem load (h : SameNumber l k) : CodeAlike [.load l] [.load k] :=
  List.Forall₂.cons (.opWord (by decide) (.inr h)) .nil

theorem save (h : SameNumber l k) : CodeAlike [.save l] [.save k] :=
  List.Forall₂.cons (.opWord (by decide) (.inr h)) .nil

theorem call (h : SameNumber l k) : CodeAlike [.call l] [.call k] :=
  List.Forall₂.cons (.opWord (by decide) (.inr h)) .nil

theorem cell (h : SameNumber l k) : CodeAlike [.cell l] [.cell k] :=
  List.Forall₂.cons (.label (.inr h)) (.cons .zero .nil)

theorem procHead (p q : String) : CodeAlike [.procHead p] [.procHead q] :=
  List.Forall₂.cons .note .nil

theorem procClose (l k : String) : CodeAlike [.procClose l] [.procClose k] :=
  List.Forall₂.cons (.op _) .nil

theorem procOpen (h : SameNumber l k) : CodeAlike [.procOpen l] [.procOpen k] :=
  List.Forall₂.cons (.label (.inr h)) .nil

end CodeAlike

/-! ## names in frames -/

/-- what a name stands for, up to the names of labels -/
def EntryAlike : EntryKind → Value → Value → Prop
  | .const, v, w => v = w
  | _, v, w => ∃ l k, v = .str l ∧ w = .str k ∧ SameNumber l k

variable {r s : String → String}

def FrameAlike (r s : String → String) (f g : Frame) : Prop :=
  ∀ kind, TableAlike r s (EntryAlike kind) (f.table kind) (g.table kind)

namespace FrameAlike

variable {f g : Frame}

theorem empty : FrameAlike r s {} {} := by
  intro kind x
  cases kind <;> exact .none

theorem define (hr : r.Injective) (hs : s.Injective) (h : FrameAlike r s f g) (y : String)
    (v : Value) : FrameAlike r s (f.define (.str (r y)) v) (g.define (.str (s y)) v) := by
  intro kind
  cases kind with
  | const => exact (h .const).put hr hs y rfl
  | var => exact h .var
  | proc => exact h .proc

theorem update (hr : r.Injective) (hs : s.Injective) (h : FrameAlike r s f g) (y : String)
    {l k : String} (hlk : SameNumber l k) :
    FrameAlike r s (f.update (.str (r y)) (.str l)) (g.update (.str (s y)) (.str k)) := by
  intro kind
  cases kind with
  | const => exact h .const
  | var => exact (h .var).put hr hs y ⟨l, k, rfl, rfl, hlk⟩
  | proc => exact h .proc

theorem declare (hr : r.Injective) (hs : s.Injective) (h : FrameAlike r s f g) (y : String)
    {l k : String} (hlk : SameNumber l k) :
    FrameAlike r s (f.declare (.str (r y)) (.str l)) (g.declare (.str (s y)) (.str k)) := by
  intro kind
  cases kind with
  | const => exact h .const
  | var => exact h .var
  | proc => exact (h .proc).put hr hs y ⟨l, k, rfl, rfl, hlk⟩

theorem lookup (h : FrameAlike r s f g) (x : String) :
    Option.Rel (fun a b => a.1 = b.1 ∧ EntryAlike a.1 a.2 b.2) (f.lookup (.str (r x)))
      (g.lookup (.str (s x))) := by
  have hc := h .const x
  have hv := h .var x
  have hp := h .proc x
  simp only [Frame.table] at hc hv hp
  rw [Frame.lookup, Frame.lookup]
  generalize f.consts.get? (.str (r x)) = c, g.consts.get? (.str (s x)) = c' at hc
  cases hc with
  | some hvw => exact .some ⟨rfl, hvw⟩
  | none =>
  generalize f.vars.get? (.str (r x)) = v, g.vars.get? (.str (s x)) = v' at hv
  cases hv with
  | some hvw => exact .some ⟨rfl, hvw⟩
  | none =>
  generalize f.procs.get? (.str (r x)) = p, g.procs.get? (.str (s x)) = p' at hp
  cases hp with
  | some hvw => exact .some ⟨rfl, hvw⟩
  | none => exact .none

theorem defineAll (hr : r.Injective) (hs : s.Injective) (ds : List (String × Nat))
    (h : FrameAlike r s f g) :
    FrameAlike r s (Generator.defineAll f (ds.map fun d => (r d.1, d.2)))
      (Generator.defineAll g (ds.map fun d => (s d.1, d.2))) := by
  induction ds generalizing f g with
  | nil => exact h
  | cons d ds ih => exact ih (h.define hr hs d.1 (.int d.2))

theorem declareAll (hr : r.Injective) (hs : s.Injective) (n : Nat) (xs : List String)
    (h : FrameAlike r s f g) :
    FrameAlike r s (Generator.declareAll assembly n f (xs.map r))
      (Generator.declareAll assembly n g (xs.map s)) := by
  induction xs generalizing f g n with
  | nil => exact h
  | cons x xs ih => exact ih (n + 1) (h.update hr hs x ⟨_, _, n + 1, rfl, rfl⟩)

theorem declared (hr : r.Injective) (hs : s.Injective) (n : Nat)
    (consts : Option (List (String × Nat))) (vars : Option (List String))
    (h : FrameAlike r s f g) :
    FrameAlike r s (Generator.declared assembly n f (renameConsts r consts) (renameVars r vars))
      (Generator.declared assembly n g (renameConsts s consts) (renameVars s vars)) := by
  have hconsts := h.defineAll hr hs (consts.getD [])
  have hvars := hconsts.declareAll hr hs n (vars.getD [])
  cases consts <;> cases vars <;> exact hvars

end FrameAlike

/-- frames that know the same names, one by one -/
def FramesAlike (r s : String → String) : Frames → Frames → Prop := List.Forall₂ (FrameAlike r s)

theorem FramesAlike.find? {fs gs : Frames} (h : FramesAlike r s fs gs) (x : String) :
    Option.Rel (fun a b => a.1 = b.1 ∧ EntryAlike a.1 a.2.1 b.2.1) (fs.find? (.str (r x)))
      (gs.find? (.str (s x))) := by
  induction h with
  | nil => exact .none
  | @cons f g fs gs hfg _ ih =>
    have hlook := hfg.lookup x
    rw [Frames.find?, Frames.find?]
    generalize f.lookup (.str (r x)) = a, g.lookup (.str (s x)) = b at hlook
    cases hlook with
    | some hab => exact .some hab
    | none =>
      generalize Frames.find? (.str (r x)) fs = a, Frames.find? (.str (s x)) gs = b at ih
      cases ih with
      | some hab => exact .some hab
      | none => exact .none

theorem FramesAlike.entry {fs gs : Frames} (h : FramesAlike r s fs gs) {x : String}
    {kind : EntryKind} {v : Value} {n : Nat} (hf : fs.find? (.str (r x)) = some (kind, v, n)) :
    ∃ w m, gs.find? (.str (s x)) = some (kind, w, m) ∧ EntryAlike kind v w := by
  have hx := h.find? x
  rw [hf] at hx
  generalize hb : gs.find? (.str (s x)) = b at hx
  cases hx with
  | @some _ e hab =>
    obtain ⟨kind', w, m⟩ := e
    obtain ⟨rfl, hvw⟩ := hab
    exact ⟨w, m, rfl, hvw⟩

/-! ## code of renamed parts -/

section Code

variable {fs gs : Frames}

theorem renamed_name (hfs : FramesAlike r s fs gs) {x : String} {es : List Event}
    (h : FactorCode fs (.name (r x)) es) :
    ∃ ds, FactorCode gs (.name (s x)) ds ∧ CodeAlike es ds := by
  cases h with
  | var hf =>
    obtain ⟨w, m, hg, l, k, rfl, rfl, hlk⟩ := hfs.entry hf
    exact ⟨_, .var hg, .load hlk⟩
  | const hf =>
    obtain ⟨w, m, hg, rfl⟩ := hfs.entry hf
    exact ⟨_, .const hg, .refl _⟩

mutual

theorem ExprCode.renamed (hfs : FramesAlike r s fs gs) : ∀ {e : Expr} {es : List Event},
    ExprCode fs (e.rename r) es → ∃ ds, ExprCode gs (e.rename s) ds ∧ CodeAlike es ds
  | .mk sign first rest, _, h => by
    rw [Expr.rename] at h ⊢
    cases h with
    | mk ht hr =>
      obtain ⟨cs, hcs, hal⟩ := ht.renamed hfs
      obtain ⟨ds, hds, hal'⟩ := hr.renamed hfs
      exact ⟨_, .mk hcs hds, hal.append (hal'.append (.refl _))⟩

theorem TermsCode.renamed (hfs : FramesAlike r s fs gs) : ∀ {xs : List (AddOp × Term)}
    {es : List Event}, TermsCode fs (Expr.tailRename r xs) es →
      ∃ ds, TermsCode gs (Expr.tailRename s xs) ds ∧ CodeAlike es ds
  | [], _, .nil => ⟨[], .nil, .refl _⟩
  | (op, x) :: rest, _, h => by
    rw [Expr.tailRename] at h ⊢
    cases h with
    | cons hx hr =>
      obtain ⟨cs, hcs, hal⟩ := hx.renamed hfs
      obtain ⟨ds, hds, hal'⟩ := hr.renamed hfs
      exact ⟨_, .cons hcs hds, hal.append ((CodeAlike.refl [_]).cons hal')⟩

theorem TermCode.renamed (hfs : FramesAlike r s fs gs) : ∀ {x : Term} {es : List Event},
    TermCode fs (x.rename r) es → ∃ ds, TermCode gs (x.rename s) ds ∧ CodeAlike es ds
  | .mk first rest, _, h => by
    rw [Term.rename] at h ⊢
    cases h with
    | mk hf hr =>
      obtain ⟨cs, hcs, hal⟩ := hf.renamed hfs
      obtain ⟨ds, hds, hal'⟩ := hr.renamed hfs
      exact ⟨_, .mk hcs hds, hal.append hal'⟩

theorem FactorsCode.renamed (hfs : FramesAlike r s fs gs) : ∀ {xs : List (MulOp × Factor)}
    {es : List Event}, FactorsCode fs (Term.tailRename r xs) es →
      ∃ ds, FactorsCode gs (Term.tailRename s xs) ds ∧ CodeAlike es ds
  | [], _, .nil => ⟨[], .nil, .refl _⟩
  | (op, x) :: rest, _, h => by
    rw [Term.tailRename] at h ⊢
    cases h with
    | cons hx hr =>
      obtain ⟨cs, hcs, hal⟩ := hx.renamed hfs
      obtain ⟨ds, hds, hal'⟩ := hr.renamed hfs
      exact ⟨_, .cons hcs hds, hal.append ((CodeAlike.refl _).append hal')⟩

theorem FactorCode.renamed (hfs : FramesAlike r s fs gs) : ∀ {x : Factor} {es : List Event},
    FactorCode fs (x.rename r) es → ∃ ds, FactorCode gs (x.rename s) ds ∧ CodeAlike es ds
  | .name _, _, h => renamed_name hfs h
  | .number _, _, .number => ⟨_, .number, .refl _⟩
  | .paren e, _, h => by
    rw [Factor.rename] at h ⊢
    cases h with
    | paren he =>
      obtain ⟨cs, hcs, hal⟩ := he.renamed hfs
      exact ⟨cs, .paren hcs, hal⟩

end

theorem ConditionCode.renamed (hfs : FramesAlike r s fs gs) {c : Condition} {es : List Event}
    (h : ConditionCode assembly fs (c.rename r) es) :
    ∃ ds, ConditionCode assembly gs (c.rename s) ds ∧ CodeAlike es ds := by
  cases c with
  | odd e =>
    cases h with
    | odd he =>
      obtain ⟨cs, hcs, hal⟩ := he.renamed hfs
      exact ⟨_, .odd hcs, hal.append (.refl _)⟩
  | compare lhs op rhs =>
    cases h with
    | compare hl hr hw =>
      obtain ⟨cs, hcs, hal⟩ := hl.renamed hfs
      obtain ⟨ds, hds, hal'⟩ := hr.renamed hfs
      exact ⟨_, .compare hcs hds hw, hal.append (hal'.append (.refl _))⟩

mutual

theorem StatementCode.renamed (hfs : FramesAlike r s fs gs) : ∀ {t : Statement} {n m : Nat}
    {es : List Event}, StatementCode assembly fs n (t.rename r) m es →
      ∃ ds, StatementCode assembly gs n (t.rename s) m ds ∧ CodeAlike es ds
  | .assign x e, _, _, _, h => by
    rw [Statement.rename] at h ⊢
    cases h with
    | assign he hf =>
      obtain ⟨cs, hcs, hal⟩ := he.renamed hfs
      obtain ⟨w, m, hg, l, k, rfl, rfl, hlk⟩ := hfs.entry hf
      exact ⟨_, .assign hcs hg, hal.append (.save hlk)⟩
  | .call p, _, _, _, h => by
    rw [Statement.rename] at h ⊢
    cases h with
    | call hf =>
      obtain ⟨w, m, hg, l, k, rfl, rfl, hlk⟩ := hfs.entry hf
      exact ⟨_, .call hg, .call hlk⟩
  | .block body, _, _, _, h => by
    rw [Statement.rename] at h ⊢
    cases h with
    | block hb =>
      obtain ⟨cs, hcs, hal⟩ := hb.renamed hfs
      exact ⟨cs, .block hcs, hal⟩
  | .ifThen c t, _, _, _, h => by
    rw [Statement.rename] at h ⊢
    cases h with
    | ifThen hc ht =>
      obtain ⟨cs, hcs, hal⟩ := hc.renamed hfs
      obtain ⟨ds, hds, hal'⟩ := ht.renamed hfs
      exact ⟨_, .ifThen hcs hds, hal.append ((CodeAlike.refl [_]).cons (hal'.append (.refl _)))⟩
  | .whileDo c t, _, _, _, h => by
    rw [Statement.rename] at h ⊢
    cases h with
    | whileDo htop hbottom hc ht =>
      obtain ⟨cs, hcs, hal⟩ := hc.renamed hfs
      obtain ⟨ds, hds, hal'⟩ := ht.renamed hfs
      refine ⟨_, .whileDo htop hbottom hcs hds, (CodeAlike.refl [_]).cons ?_⟩
      exact (hal.append ((CodeAlike.refl [_]).cons hal')).append (.refl _)
  | .print e, _, _, _, h => by
    rw [Statement.rename] at h ⊢
    cases h with
    | print he =>
      obtain ⟨cs, hcs, hal⟩ := he.renamed hfs
      exact ⟨_, .print hcs, hal.append (.refl _)⟩

theorem StatementsCode.renamed (hfs : FramesAlike r s fs gs) : ∀ {ts : List Statement} {n m : Nat}
    {es : List Event}, StatementsCode assembly fs n (Statement.rename.renameAll r ts) m es →
      ∃ ds, StatementsCode assembly gs n (Statement.rename.renameAll s ts) m ds ∧ CodeAlike es ds
  | [], _, _, _, .nil => ⟨[], .nil, .refl _⟩
  | t :: ts, _, _, _, h => by
    rw [Statement.rename.renameAll] at h ⊢
    cases h with
    | cons ht hts =>
      obtain ⟨cs, hcs, hal⟩ := ht.renamed hfs
      obtain ⟨ds, hds, hal'⟩ := hts.renamed hfs
      exact ⟨_, .cons hcs hds, hal.append hal'⟩

end

theorem cells_alike (n : Nat) (xs : List String) :
    CodeAlike (cellEvents assembly n (xs.map r)) (cellEvents assembly n (xs.map s)) := by
  induction xs generalizing n with
  | nil => exact .refl _
  | cons x xs ih => exact .cons (.cell ⟨_, _, n + 1, rfl, rfl⟩) (ih (n + 1))

theorem getD_renameVars (r : String → String) (vars : Option (List String)) :
    (renameVars r vars).getD [] = (vars.getD []).map r := by
  cases vars <;> rfl

/-- the declarations of a block take as many labels and make the same cells -/
theorem variables_alike (r s : String → String) (n : Nat) (vars : Option (List String)) :
    ((renameVars r vars).getD []).length = ((renameVars s vars).getD []).length ∧
      CodeAlike (cellEvents assembly n ((renameVars r vars).getD []))
        (cellEvents assembly n ((renameVars s vars).getD [])) := by
  rw [getD_renameVars, getD_renameVars, List.length_map, List.length_map]
  exact ⟨rfl, cells_alike n (vars.getD [])⟩

end Code

/-! ## code of renamed programs -/

theorem ProcsCode.renamed (hr : r.Injective) (hs : s.Injective) :
    ∀ {procs : List (String × Block)} {fs gs : Frames} {n m : Nat} {f f' g : Frame}
      {es : List Event}, ProcsCode assembly fs n f (Block.renameProcs r procs) m f' es →
      FramesAlike r s (f :: fs) (g :: gs) →
        ∃ g' ds, ProcsCode assembly gs n g (Block.renameProcs s procs) m g' ds ∧
          FrameAlike r s f' g' ∧ CodeAlike es ds
  | [], _, _, _, _, _, _, g, _, .nil, hfs => by
    cases hfs with
    | cons hfg _ => exact ⟨g, [], .nil, hfg, .refl _⟩
  | (p, .mk consts vars inner body) :: rest, fs, gs, n, m, f, f', g, _, h, hfs => by
    rw [Block.renameProcs, Block.rename] at h ⊢
    cases hfs with
    | cons hfg hrest =>
    cases h with
    | cons hlabel hframe hbody hprocs =>
      subst hlabel hframe
      have hnumber : SameNumber (procLabel assembly n (r p)) (procLabel assembly n (s p)) :=
        ⟨_, _, n + 1, rfl, rfl⟩
      have hdeclared := hfg.declare hr hs p hnumber
      have hscope := FrameAlike.empty.declared hr hs (n + 1) consts vars
      obtain ⟨cs, hcs, hal⟩ := hbody.renamed (.cons hscope (.cons hdeclared hrest))
      obtain ⟨g', ds, hds, hg', hal'⟩ := ProcsCode.renamed hr hs hprocs (.cons hdeclared hrest)
      obtain ⟨hlength, hcells⟩ := variables_alike r s (n + 1) vars
      rw [hlength] at hcs
      refine ⟨g', _, .cons rfl rfl hcs hds, hg', .cons (.procHead _ _) (hcells.append ?_)⟩
      exact .cons (.procOpen hnumber) (hal.append (.cons (.procClose _ _) hal'))

/-- A program under one renaming has code if it has code under another, and the two codes differ in
the names of labels only. -/
theorem ProgramCode.renamed (hr : r.Injective) (hs : s.Injective) {p : Program} {m : Nat}
    {f : Frame} {es : List Event} (h : ProgramCode assembly (p.rename r) m f es) :
    ∃ g ds, ProgramCode assembly (p.rename s) m g ds ∧ CodeAlike es ds := by
  obtain ⟨⟨consts, vars, procs, body⟩⟩ := p
  rw [Program.rename, Block.rename] at h ⊢
  cases h with
  | mk hprocs hbody =>
    have hscope := FrameAlike.empty.declared hr hs 0 consts vars
    obtain ⟨g, cs, hcs, hg, hal⟩ := hprocs.renamed hr hs (.cons hscope .nil)
    obtain ⟨ds, hds, hal'⟩ := hbody.renamed (.cons hg .nil)
    obtain ⟨hlength, hcells⟩ := variables_alike r s 0 vars
    rw [hlength] at hcs
    refine ⟨g, _, .mk hcs hds, .cons (.refl _) (hcells.append (hal.append ?_))⟩
    exact (CodeAlike.refl [_]).cons (hal'.append (.refl _))

end Pl0Kit.Generator

namespace Pl0Kit

open Machine Generator

/-- a renaming of identifiers, with all other texts left as they are -/
noncomputable def identifiersOnly (r : String → String) (x : String) : String :=
  open Classical in if Identifier x then r x else x

theorem identifiersOnly_injective {r : String → String}
    (hid : ∀ x, Identifier x → Identifier (r x))
    (hinj : ∀ x y, Identifier x → Identifier y → r x = r y → x = y) :
    (identifiersOnly r).Injective := by
  intro x y h
  unfold identifiersOnly at h
  split at h <;> split at h
  · exact hinj x y ‹_› ‹_› h
  · rename_i hx hy
    exact absurd (h ▸ hid x hx) hy
  · rename_i hx hy
    exact absurd (h ▸ hid y hy) hx
  · exact h

/-- both directions between a program and the program with its identifiers renamed -/
theorem Program.Shaped.code_renamed {p : Program} {r : String → String} (hp : p.Shaped)
    (hid : ∀ x, Identifier x → Identifier (r x))
    (hinj : ∀ x y, Identifier x → Identifier y → r x = r y → x = y) :
    (∀ {m f es}, ProgramCode assembly p m f es →
      ∃ g ds, ProgramCode assembly (p.rename r) m g ds ∧ CodeAlike es ds) ∧
    ∀ {m f es}, ProgramCode assembly (p.rename r) m f es →
      ∃ g ds, ProgramCode assembly p m g ds ∧ CodeAlike es ds := by
  have hname : ∀ x, Symbol.name x ∈ p.symbols → r x = identifiersOnly r x := by
    intro x hx
    rw [identifiersOnly, if_pos (hp.names x hx)]
  have hrename : p.rename r = p.rename (identifiersOnly r) := Program.rename_congr hname
  have hinjective := identifiersOnly_injective hid hinj
  constructor
  · intro m f es h
    rw [← p.rename_id] at h
    rw [hrename]
    exact h.renamed Function.injective_id hinjective
  · intro m f es h
    rw [hrename] at h
    obtain ⟨g, ds, hds, hal⟩ := h.renamed hinjective Function.injective_id
    rw [p.rename_id] at hds
    exact ⟨g, ds, hds, hal⟩

theorem fails_iff {ε α : Type} (x : Except ε α) : (∃ e, x = .error e) ↔ ¬ ∃ a, x = .ok a := by
  cases x <;> simp

/-- **Names do not matter to the compiled program.**  A parsed program and the same program with its
identifiers renamed to different identifiers are both compiled or both refused, and their texts
assemble to the same integers. -/
theorem renamed_program_agrees {source : String} {p : Program} {r : String → String}
    (hparse : (parseText source).1 = .ok p) (hid : ∀ x, Identifier x → Identifier (r x))
    (hinj : ∀ x y, Identifier x → Identifier y → r x = r y → x = y) :
    ((∃ e, (translate assembly (p.rename r).toValue {}).1 = .error e) ↔
      ∃ e, (translate assembly p.toValue {}).1 = .error e) ∧
    ∀ a, (translate assembly p.toValue {}).1 = .ok a →
      assemble (translate assembly (p.rename r).toValue {}).2.1 =
        assemble (translate assembly p.toValue {}).2.1 ∧
      ∀ c ∈ assemble (translate assembly p.toValue {}).2.1, ∃ n : Int, c = .int n := by
  have hshaped := shaped_of_parse hparse
  obtain ⟨hthere, hback⟩ := hshaped.code_renamed hid hinj
  constructor
  · rw [fails_iff, fails_iff, not_iff_not, translates_iff, translates_iff]
    constructor
    · rintro ⟨m, f, es, hcode⟩
      obtain ⟨g, ds, hds, -⟩ := hback hcode
      exact ⟨m, g, ds, hds⟩
    · rintro ⟨m, f, es, hcode⟩
      obtain ⟨g, ds, hds, -⟩ := hthere hcode
      exact ⟨m, g, ds, hds⟩
  · intro a ha
    obtain ⟨m, f, es, hcode⟩ := translates_iff.1 ⟨a, ha⟩
    obtain ⟨g, ds, hds, hal⟩ := hthere hcode
    have hrenamed := hshaped.rename hid
    rw [hcode.translates, hds.translates, assemble_eq (asmLines_program hcode hshaped),
      assemble_eq (asmLines_program hds hrenamed)]
    exact ⟨(code_alike (hcode.resolved hshaped) (hds.resolved hrenamed) hal).symm,
      hcode.integers hshaped⟩

/-- one of two variables is set, the other is printed -/
def setFirst : Program :=
  ⟨.mk none (some ["x", "y"]) [] (.block [.assign "x" (.mk none (.mk (.number 1) []) []),
    .print (.mk none (.mk (.name "y") []) [])])⟩

theorem setFirst_parses : (parseText "var x, y; begin x := 1; ! y end.").1 = .ok setFirst := by
  with_unfolding_all rfl

theorem setFirst_compiles : ∃ a, (translate assembly setFirst.toValue {}).1 = .ok a :=
  ⟨_, by with_unfolding_all rfl⟩

/-- the names of the two variables may be swapped -/
theorem setFirst_swapped :
    assemble (translate assembly (setFirst.rename (Equiv.swap "x" "y")).toValue {}).2.1 =
      assemble (translate assembly setFirst.toValue {}).2.1 := by
  have hx : Identifier "x" := ⟨⟨'x', [], by decide +kernel, by decide, nofun⟩, by decide +kernel⟩
  have hy : Identifier "y" := ⟨⟨'y', [], by decide +kernel, by decide, nofun⟩, by decide +kernel⟩
  have hid : ∀ z, Identifier z → Identifier (Equiv.swap "x" "y" z) := by
    intro z hz
    rw [Equiv.swap_apply_def]
    split
    · exact hy
    split
    · exact hx
    · exact hz
  obtain ⟨a, ha⟩ := setFirst_compiles
  exact ((renamed_program_agrees setFirst_parses hid
    fun z w _ _ hzw => (Equiv.swap "x" "y").injective hzw).2 a ha).1

end Pl0Kit
