import Mathlib.Data.List.Forall2
import Pl0Kit.Proofs.Emission
import Pl0Kit.Proofs.KnownNames

/-!
# Targets agree

All targets accept the same programs, make the same number of labels and give the names of a program
the same numbers: they differ in how labels are spelled, in the words they emit and in where a loop
is tested.  Statements take as many labels in one target as in another, since conditions take none.

* `Frame.Matches T U f g`  the frames of one block for the targets `T` and `U`;
* `ProgramCode.retarget`   a program that has code for one target has code for another;
* `generators_agree`       the four generators on one program.
-/

namespace Pl0Kit

open Generator

/-! ## symbols of two targets -/

/-- two tables with the same names in the same order, and labels with the same numbers, where
`l n x` and `k n x` are the labels of the name `x` after `n` labels -/
def SameSymbols (l k : Nat → String → String) : Table → Table → Prop :=
  List.Forall₂ fun e d => ∃ n x, e = (.str x, .str (l n x)) ∧ d = (.str x, .str (k n x))

namespace SameSymbols

variable {l k : Nat → String → String} {t u : Table}

theorem put (h : SameSymbols l k t u) (n : Nat) (x : String) :
    SameSymbols l k (t.put (.str x) (.str (l n x))) (u.put (.str x) (.str (k n x))) := by
  induction h with
  | nil => exact .cons ⟨n, x, rfl, rfl⟩ .nil
  | cons hed hrest ih =>
    obtain ⟨m, y, rfl, rfl⟩ := hed
    rw [Table.put, Table.put]
    split
    · rename_i hxy
      cases Value.same_str.1 hxy
      exact .cons ⟨n, x, rfl, rfl⟩ hrest
    · exact .cons ⟨m, y, rfl, rfl⟩ ih

theorem isSome_get? (h : SameSymbols l k t u) (x : String) :
    (t.get? (.str x)).isSome = (u.get? (.str x)).isSome := by
  induction h with
  | nil => rfl
  | cons hed _ ih =>
    obtain ⟨n, y, rfl, rfl⟩ := hed
    rw [Table.get?_cons, Table.get?_cons]
    split
    · rfl
    · exact ih

/-- labels that are spelled alike are the same -/
theorem eq (h : SameSymbols l l t u) : t = u := by
  induction h with
  | nil => rfl
  | cons hed _ ih =>
    obtain ⟨n, x, rfl, rfl⟩ := hed
    rw [ih]

end SameSymbols

/-- the frames that a block has for two targets -/
structure Frame.Matches (T U : Target) (f g : Frame) : Prop where
  consts : f.consts = g.consts
  vars : SameSymbols (varLabel T) (varLabel U) f.vars g.vars
  procs : SameSymbols (procLabel T) (procLabel U) f.procs g.procs

namespace Frame.Matches

variable {T U : Target} {f g : Frame}

theorem empty : Frame.Matches T U {} {} := ⟨rfl, .nil, .nil⟩

theorem define (h : f.Matches T U g) (k v : Value) : (f.define k v).Matches T U (g.define k v) :=
  ⟨congrArg (·.put k v) h.consts, h.vars, h.procs⟩

theorem update (h : f.Matches T U g) (n : Nat) (x : String) :
    (f.update (.str x) (.str (varLabel T n x))).Matches T U
      (g.update (.str x) (.str (varLabel U n x))) :=
  ⟨h.consts, h.vars.put n x, h.procs⟩

theorem declare (h : f.Matches T U g) (n : Nat) (p : String) :
    (f.declare (.str p) (.str (procLabel T n p))).Matches T U
      (g.declare (.str p) (.str (procLabel U n p))) :=
  ⟨h.consts, h.vars, h.procs.put n p⟩

theorem defineAll (h : f.Matches T U g) (ds : List (String × Nat)) :
    (Generator.defineAll f ds).Matches T U (Generator.defineAll g ds) := by
  induction ds generalizing f g with
  | nil => exact h
  | cons d ds ih => exact ih (h.define (.str d.1) (.int d.2))

theorem declareAll (h : f.Matches T U g) (n : Nat) (xs : List String) :
    (Generator.declareAll T n f xs).Matches T U (Generator.declareAll U n g xs) := by
  induction xs generalizing f g n with
  | nil => exact h
  | cons x xs ih => exact ih (h.update n x) (n + 1)

theorem declared (n : Nat) (consts : Option (List (String × Nat))) (vars : Option (List String)) :
    (Generator.declared T n {} consts vars).Matches T U (Generator.declared U n {} consts vars) :=
  (empty.defineAll (consts.getD [])).declareAll n (vars.getD [])

/-- a name is of the same kind in both frames -/
theorem lookup (h : f.Matches T U g) (x : String) :
    (f.lookup (.str x)).map Prod.fst = (g.lookup (.str x)).map Prod.fst := by
  rw [Frame.lookup_kind, Frame.lookup_kind, h.consts, h.vars.isSome_get? x, h.procs.isSome_get? x]

/-- frames with labels that are spelled alike are the same -/
theorem eq (h : f.Matches T U g) (hv : varLabel T = varLabel U) (hp : procLabel T = procLabel U) :
    f = g := by
  obtain ⟨consts, vars, procs⟩ := f
  obtain ⟨hconsts, hvars, hprocs⟩ := h
  rw [← hv] at hvars
  rw [← hp] at hprocs
  obtain rfl : consts = g.consts := hconsts
  obtain rfl : vars = g.vars := hvars.eq
  obtain rfl : procs = g.procs := hprocs.eq
  rfl

end Frame.Matches

namespace Generator

variable {T U : Target}

/-! ## code for another target -/

/-- names are of the same kind in both frames -/
theorem kind?_of_matches {fs gs : Frames} (h : List.Forall₂ (Frame.Matches T U) fs gs) :
    fs.kind? = gs.kind? := by
  funext x
  induction h with
  | nil => rfl
  | cons hfg _ ih => rw [Frames.kind?_cons, Frames.kind?_cons, hfg.lookup, ih]

/-- statements take the same labels for both targets -/
theorem StatementCode.retarget (hT : T.Relates) (hU : U.Relates) {fs gs : Frames}
    (h : List.Forall₂ (Frame.Matches T U) fs gs) {n m : Nat} {s : Statement} {es : List Event}
    (hs : StatementCode T fs n s m es) : ∃ ds, StatementCode U gs n s m ds := by
  rw [statementCode_iff hU, ← kind?_of_matches h, ← statementCode_iff hT]
  exact ⟨es, hs⟩

theorem ProcsCode.retarget (hT : T.Relates) (hU : U.Relates) {fs gs : Frames} {n m : Nat}
    {f f' g : Frame} {procs : List (String × Block)} {es : List Event}
    (h : ProcsCode T fs n f procs m f' es) (hfg : f.Matches T U g)
    (hrest : List.Forall₂ (Frame.Matches T U) fs gs) :
    ∃ g' ds, ProcsCode U gs n g procs m g' ds ∧ f'.Matches T U g' := by
  induction h generalizing g with
  | nil => exact ⟨g, [], .nil, hfg⟩
  | @cons n m k f f' p consts vars inner rest body cs ds f₁ label hlabel hf₁ hbody _ ih =>
    subst hlabel hf₁
    have hdeclared := hfg.declare n p
    have hscope := Frame.Matches.declared (T := T) (U := U) (n + 1) consts vars
    obtain ⟨cs', hcs⟩ := hbody.retarget hT hU (.cons hscope (.cons hdeclared hrest))
    obtain ⟨g', ds', hds, hg'⟩ := ih hdeclared
    exact ⟨g', _, .cons rfl rfl hcs hds, hg'⟩

/-- A program that has code for one target has code for another, with as many labels and with a
frame of the same names. -/
theorem ProgramCode.retarget (hT : T.Relates) (hU : U.Relates) {p : Program} {m : Nat} {f : Frame}
    {es : List Event} (h : ProgramCode T p m f es) :
    ∃ g ds, ProgramCode U p m g ds ∧ f.Matches T U g := by
  cases h with
  | @mk _ _ _ consts vars _ _ _ _ hprocs hbody =>
    obtain ⟨g, cs, hcs, hg⟩ := hprocs.retarget hT hU (.declared 0 consts vars) .nil
    obtain ⟨ds, hds⟩ := hbody.retarget hT hU (.cons hg .nil)
    exact ⟨g, _, .mk hcs hds, hg⟩

/-- a program that one generator accepts is accepted by another -/
theorem accepted_by (hT : T.Relates) (hU : U.Relates) {p : Program} {x : Frame × Value}
    (h : (translate T p.toValue {}).1 = .ok x) :
    ∃ y, (translate U p.toValue {}).1 = .ok y := by
  obtain ⟨m, f, es, hcode⟩ := translates_iff.1 ⟨x, h⟩
  obtain ⟨g, ds, hds, -⟩ := hcode.retarget hT hU
  exact translates_iff.2 ⟨m, g, ds, hds⟩

/-- **The four generators agree.**  On every program either all of them answer or all of them refuse
a name.  Where they answer, no frame is left open and the number of labels is the same; the frames
for assembly, Retro 11 and Parable are one and the same, and the frame for Retro 12 has the same
constants and, in the same order, the same variables and procedures with labels of the same
numbers. -/
theorem generators_agree (p : Program) :
    (∃ (f g : Frame) (n : Nat),
      (∀ T ∈ [assembly, retro11, parable], ∃ text,
        translate T p.toValue {} = (.ok (f, .none), text, { labels := n })) ∧
      (∃ text, translate retro12 p.toValue {} = (.ok (g, .none), text, { labels := n })) ∧
      f.Matches assembly retro12 g) ∨
    ∀ T ∈ [assembly, retro11, retro12, parable], ∃ e,
      (translate T p.toValue {}).1 = .error e ∧ e.IsName := by
  by_cases haccept : ∃ m f es, ProgramCode assembly p m f es
  · left
    obtain ⟨n, f, es, hcode⟩ := haccept
    have hassembly : assembly.Relates := relates_of_mem assembly (by simp)
    obtain ⟨f₁, ds₁, hcode₁, hf₁⟩ := hcode.retarget hassembly (relates_of_mem retro11 (by simp))
    obtain ⟨g, ds₂, hcode₂, hg⟩ := hcode.retarget hassembly (relates_of_mem retro12 (by simp))
    obtain ⟨f₃, ds₃, hcode₃, hf₃⟩ := hcode.retarget hassembly (relates_of_mem parable (by simp))
    obtain rfl := hf₁.eq rfl rfl
    obtain rfl := hf₃.eq rfl rfl
    refine ⟨f, g, n, fun T hT => ?_, ⟨_, hcode₂.translates⟩, hg⟩
    simp only [List.mem_cons, List.not_mem_nil, or_false] at hT
    rcases hT with rfl | rfl | rfl
    · exact ⟨_, hcode.translates⟩
    · exact ⟨_, hcode₁.translates⟩
    · exact ⟨_, hcode₃.translates⟩
  · right
    intro T hT
    cases hrun : (translate T p.toValue {}).1 with
    | error e => exact ⟨e, rfl, translate_nameFault (relates_of_mem T hT) hrun⟩
    | ok x =>
      have hassembly := accepted_by (relates_of_mem T hT) (relates_of_mem assembly (by simp)) hrun
      exact absurd (translates_iff.1 hassembly) haccept

end Generator

end Pl0Kit
