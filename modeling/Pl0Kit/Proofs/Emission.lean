import Pl0Kit.Proofs.Generated

/-!
# Generators answer where there is code

`program_emits` says that a generator that answers has emitted the code of the program.  Here is the
converse: where a part of a program has code, its rule answers and emits this code.  Together they
characterise the programs that a generator accepts (`translates_iff`), for all targets at once.  It
refuses the others at a name that is unknown or that stands for the wrong kind of thing, if its
target has a word for every comparison (`translate_nameFault`).
-/

namespace Pl0Kit.Generator

open Act

variable {T : Target} {fs : Frames} {n m : Nat} {es : List Event}

/-- a part of a walk that answers and emits the events `es`, with `m` labels made after it -/
def Emits (p : GenM Value) (g : Gen) (m : Nat) (es : List Event) : Prop :=
  ∃ v, exec p g = (.ok v, g.after m es)

section Parts

variable {g : Gen} (hfs : ∀ f ∈ fs, Worded f) (hg : g.frames = fs)

include hfs hg

theorem Yields.runs {p : GenM Value} {A : Codes} (h : Yields T p A) (hA : A fs g.labels m es) :
    Emits p g m es := by
  subst hg
  exact (h g hfs).eq_ok ⟨m, es, hA, rfl⟩

theorem ExprCode.emits {e : Expr} (h : ExprCode fs e es) :
    Emits ((rules T).run e.toValue) g g.labels es := (yields_expr e).runs hfs hg ⟨rfl, h⟩

theorem ConditionCode.emits {c : Condition} (h : ConditionCode T fs c es) :
    Emits ((rules T).run c.toValue) g g.labels es := (yields_condition c).runs hfs hg ⟨rfl, h⟩

theorem StatementCode.emits {s : Statement} (h : StatementCode T fs n s m es)
    (hn : g.labels = n) : Emits ((rules T).run s.toValue) g m es := by
  subst hn
  exact (yields_statement s).runs hfs hg h

end Parts

/-! ## programs -/

/-- the rule for programs answers nothing but `none` -/
theorem run_program_none {p : Program} {v : Value} {g g' : Gen}
    (h : exec ((rules T).run p.toValue) g = (.ok v, g')) : v = .none := by
  obtain ⟨⟨consts, vars, procs, body⟩⟩ := p
  rw [Program.toValue, run_tuple, apply_rule "program" _ ruleNames.program rfl, programRule,
    exec_then (exec_emit _ _), exec_argument _ _ rfl, Block.toValue, exec_slice] at h
  obtain ⟨_, g₁, -, h⟩ := exec_bind_ok.1 h
  rw [exec_then (exec_emit _ _), exec_item _ _ _ rfl] at h
  obtain ⟨_, g₂, -, h⟩ := exec_bind_ok.1 h
  cases h
  rfl

theorem ProgramCode.emits {p : Program} {f : Frame} (h : ProgramCode T p m f es) :
    exec ((rules T).run p.toValue) ⟨[{}], 0, []⟩ = (.ok .none, ⟨[f], m, es⟩) := by
  obtain ⟨v, hv⟩ := (ends_program p).eq_ok ⟨m, f, es, h, rfl⟩
  rw [hv, run_program_none hv]

/-- **A program that has code is translated to it**, and the generator answers the frame of its
block. -/
theorem ProgramCode.translates {p : Program} {f : Frame} (h : ProgramCode T p m f es) :
    translate T p.toValue {} = (.ok (f, .none), render T es, { labels := m }) := by
  have hgen : exec (generate T p.toValue) {} = (.ok (f, .none), ⟨[], m, es⟩) := by
    rw [generate, openFrame, exec_then (exec_modify _ _)]
    exact (exec_then h.emits).trans rfl
  rw [exec] at hgen
  rw [translate, hgen]

/-- a program is accepted by a generator exactly if it has code -/
theorem translates_iff {p : Program} :
    (∃ x, (translate T p.toValue {}).1 = .ok x) ↔ ∃ m f es, ProgramCode T p m f es := by
  constructor
  · rintro ⟨⟨f, r⟩, hx⟩
    obtain ⟨es, hcode, -⟩ := program_emits (f := f) (r := r) (Prod.ext hx rfl)
    exact ⟨_, f, es, hcode⟩
  · rintro ⟨m, f, es, hcode⟩
    exact ⟨(f, .none), by rw [hcode.translates]⟩

/-! ## refused programs -/

theorem relates_of_mem : ∀ T ∈ [assembly, retro11, retro12, parable], T.Relates := by
  intro T hT op
  simp only [List.mem_cons, List.not_mem_nil, or_false] at hT
  rcases hT with rfl | rfl | rfl | rfl <;> cases op <;> exact ⟨_, rfl⟩

/-- **A generator refuses a program for its names only**: one is unknown, or stands for the wrong
kind of thing. -/
theorem translate_nameFault (hT : T.Relates) {p : Program} {e : Fault}
    (h : (translate T p.toValue {}).1 = .error e) : e.IsName := by
  obtain ⟨g', hrun⟩ : ∃ g', exec (generate T p.toValue) {} = (.error e, g') := ⟨_, Prod.ext h rfl⟩
  rw [generate, openFrame, exec_then (exec_modify _ _)] at hrun
  rcases exec_bind_error.1 hrun with hrun | ⟨_, g₁, h₁, hrun⟩
  · exact (hrun ▸ ends_program p :).error hT
  · -- the frame of the program is there to be closed
    obtain ⟨m, f, es, -, rfl⟩ := (h₁ ▸ ends_program p :).ok
    cases hrun

end Pl0Kit.Generator
