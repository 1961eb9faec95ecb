import Pl0Kit.Proofs.Declarations
import Pl0Kit.Proofs.Emission
import Pl0Kit.Proofs.KnownNames

/-!
# Lexical scope

`Program.Scoped` says that every name of a program is used for what it stands for, where a name
stands for its innermost declaration: in the block of its use or in one around it, and before its
use.  A block declares its constants and variables first, and then one procedure after the other;
each of them is known from its own block on.

Where no procedure has procedures of its own, there is code for every scoped program
(`exists_programCode`).
-/

namespace Pl0Kit

/-! ## kinds of names -/

/-- the names that a block has declared so far -/
structure Names where
  consts : List String
  vars : List String
  procs : List String

namespace Names

/-- the names of a block before its procedures -/
def ofBlock (consts : Option (List (String × Nat))) (vars : Option (List String)) : Names where
  consts := (consts.getD []).map Prod.fst
  vars := vars.getD []
  procs := []

def declare (d : Names) (q : String) : Names := { d with procs := q :: d.procs }

/-- constants go before variables, and these before procedures -/
def kind? (d : Names) (x : String) : Option EntryKind :=
  if x ∈ d.consts then some .const
  else if x ∈ d.vars then some .var
  else if x ∈ d.procs then some .proc
  else none

theorem not_mem_of_kind? {d : Names} {x : String} (h : d.kind? x = some .proc ∨ d.kind? x = none) :
    x ∉ d.consts ++ d.vars := by
  have hkind : d.kind? x ≠ some .const ∧ d.kind? x ≠ some .var := by
    rcases h with h | h <;> rw [h] <;> exact ⟨nofun, nofun⟩
  have hconst : x ∉ d.consts := fun hx => hkind.1 (if_pos hx)
  have hvar : x ∉ d.vars := fun hx => hkind.2 (by rw [kind?, if_neg hconst, if_pos hx])
  exact fun hx => (List.mem_append.1 hx).elim hconst hvar

end Names

/-- what a name stands for inside some blocks, from the inside out -/
def kindOf (x : String) : List Names → Option EntryKind
  | [] => none
  | d :: outer => (d.kind? x).or (kindOf x outer)

mutual

/-- a block inside others uses names as what they stand for, also in its procedures -/
def Block.Scoped (outer : List Names) : Block → Prop
  | .mk consts vars procs body => Block.scopedFrom outer body (.ofBlock consts vars) procs

/-- the same for the procedures of a block that are left, and its body, once the names `d` are
declared -/
def Block.scopedFrom (outer : List Names) (body : Statement) (d : Names) :
    List (String × Block) → Prop
  | [] => body.Fits fun x => kindOf x (d :: outer)
  | (q, b) :: rest =>
    b.Scoped (d.declare q :: outer) ∧ Block.scopedFrom outer body (d.declare q) rest

end

/-- every name of a program is used for what it stands for -/
def Program.Scoped (p : Program) : Prop := p.block.Scoped []

/-! ## frames of names -/

/-- a table has entries for the names `xs`, and for no others -/
def Table.Keys (t : Table) (xs : List String) : Prop := ∀ x, (t.get? (.str x)).isSome ↔ x ∈ xs

theorem Table.keys_nil : Table.Keys [] [] := fun _ => ⟨nofun, nofun⟩

theorem Table.Keys.put {t : Table} {xs : List String} (h : t.Keys xs) (k : String) (v : Value) :
    (t.put (.str k) v).Keys (k :: xs) := by
  intro x
  rw [Table.get?_put, List.mem_cons, ← h]
  by_cases hx : x = k <;> simp [hx]

/-- the frame `f` knows the names `d` -/
structure Frame.Has (f : Frame) (d : Names) : Prop where
  consts : f.consts.Keys d.consts
  vars : f.vars.Keys d.vars
  procs : f.procs.Keys d.procs

theorem Frame.Has.kind {f : Frame} {d : Names} (h : f.Has d) (x : String) :
    (f.lookup (.str x)).map Prod.fst = d.kind? x := by
  rw [Frame.lookup_kind, Names.kind?]
  simp only [h.consts x, h.vars x, h.procs x]

theorem Frame.Has.declare {f : Frame} {d : Names} (h : f.Has d) (q : String) (v : Value) :
    (f.declare (.str q) v).Has (d.declare q) := ⟨h.consts, h.vars, h.procs.put q v⟩

/-- names are found as what they stand for -/
theorem Frames.kind?_eq {fs : Frames} {scope : List Names} (h : List.Forall₂ Frame.Has fs scope) :
    fs.kind? = fun x => kindOf x scope := by
  funext x
  induction h with
  | nil => rfl
  | cons hf _ ih => rw [kind?_cons, hf.kind, ih, kindOf]

namespace Generator

theorem keys_defineAll (ds : List (String × Nat)) {f : Frame} {xs : List String}
    (h : f.consts.Keys xs) : (defineAll f ds).consts.Keys (ds.map Prod.fst ++ xs) := by
  induction ds generalizing f xs with
  | nil => exact h
  | cons d ds ih =>
    intro x
    have hrest := ih (f := f.define (.str d.1) (.int d.2)) (h.put d.1 (.int d.2)) x
    rw [List.mem_append, List.mem_cons] at hrest
    rw [List.map_cons, List.cons_append, List.mem_cons, List.mem_append, or_left_comm]
    exact hrest

theorem keys_declareAll (T : Target) (ys : List String) (n : Nat) {f : Frame} {xs : List String}
    (h : f.vars.Keys xs) : (declareAll T n f ys).vars.Keys (ys ++ xs) := by
  induction ys generalizing n f xs with
  | nil => exact h
  | cons y ys ih =>
    intro x
    have hrest := ih (n + 1) (f := f.update (.str y) (.str (varLabel T n y))) (h.put y _) x
    rw [List.mem_append, List.mem_cons] at hrest
    rw [List.cons_append, List.mem_cons, List.mem_append, or_left_comm]
    exact hrest

theorem has_declared (T : Target) (n : Nat) (consts : Option (List (String × Nat)))
    (vars : Option (List String)) : (declared T n {} consts vars).Has (.ofBlock consts vars) := by
  have hconsts := keys_defineAll (consts.getD []) (f := {}) Table.keys_nil
  obtain ⟨hkeepv, hkeepp⟩ := Evaluator.defineAll_keeps (consts.getD []) {}
  have hempty : (defineAll {} (consts.getD [])).vars.Keys [] := by
    rw [hkeepv]
    exact Table.keys_nil
  have hvars := keys_declareAll T (vars.getD []) n hempty
  obtain ⟨hkeepc', hkeepp'⟩ := declareAll_keeps T (vars.getD []) n (defineAll {} (consts.getD []))
  rw [List.append_nil] at hconsts hvars
  refine ⟨?_, hvars, ?_⟩
  · rw [declared, hkeepc']
    exact hconsts
  · rw [declared, hkeepp', hkeepp]
    exact Table.keys_nil

/-! ## code of scoped programs -/

theorem exists_statementCode {fs : Frames} {scope : List Names}
    (hfs : List.Forall₂ Frame.Has fs scope) {s : Statement} (h : s.Fits fun x => kindOf x scope)
    (n : Nat) : ∃ m es, StatementCode assembly fs n s m es := by
  have hassembly : assembly.Relates := relates_of_mem assembly List.mem_cons_self
  exact ⟨_, (statementCode_iff hassembly s n _).2 ⟨rfl, Frames.kind?_eq hfs ▸ h⟩⟩

/-- procedures without procedures of their own, and the body of their block -/
theorem exists_procsCode {procs : List (String × Block)} {body : Statement} {d : Names} {f : Frame}
    (hflat : ∀ q ∈ procs, q.2.procs = []) (h : Block.scopedFrom [] body d procs) (hf : f.Has d)
    (n : Nat) :
    ∃ k m f' cs ds, ProcsCode assembly [] n f procs k f' cs ∧
    StatementCode assembly [f'] k body m ds := by
  induction procs generalizing d f n with
  | nil =>
    obtain ⟨m, ds, hds⟩ := exists_statementCode (.cons hf .nil) h n
    exact ⟨n, m, f, [], ds, .nil, hds⟩
  | cons q procs ih =>
    obtain ⟨q, b⟩ := q
    obtain ⟨hfirst, hrest⟩ := List.forall_mem_cons.1 hflat
    have hg := hf.declare q (.str (procLabel assembly n q))
    cases b with
    | mk consts vars inner inside =>
      obtain rfl : inner = [] := hfirst
      have hframes : List.Forall₂ Frame.Has [declared assembly (n + 1) {} consts vars,
          f.declare (.str q) (.str (procLabel assembly n q))] [.ofBlock consts vars, d.declare q] :=
        .cons (has_declared _ _ _ _) (.cons hg .nil)
      obtain ⟨j, es, hes⟩ := exists_statementCode hframes h.1 (n + 1 + (vars.getD []).length)
      obtain ⟨k, m, f', cs, ds, hcs, hds⟩ := ih hrest h.2 hg j
      exact ⟨k, m, f', _, ds, .cons rfl rfl hes hcs, hds⟩

/-- **There is code for scoped programs**, if no procedure has procedures of its own. -/
theorem exists_programCode {p : Program} (h : p.Scoped)
    (hflat : ∀ q ∈ p.block.procs, q.2.procs = []) : ∃ m f es, ProgramCode assembly p m f es := by
  obtain ⟨b⟩ := p
  cases b with
  | mk consts vars procs body =>
    obtain ⟨k, m, f, cs, ds, hcs, hds⟩ :=
      exists_procsCode hflat h (has_declared assembly 0 consts vars) (vars.getD []).length
    exact ⟨m, f, _, .mk hcs hds⟩

end Generator

end Pl0Kit
