import Mathlib.Data.List.Nodup
import Pl0Kit.Proofs.Declarations
import Pl0Kit.Proofs.KnownNames

/-!
# Numbers of labels

Labels are numbered in the order in which they are made: a procedure takes its number before its
variables, and statements take theirs in the order of the text.

* `Program.procedures`  the procedures of a program and their variables, with the numbers of their
                        labels;
* `Program.numbered`    all declarations that get a label, in the order of the text;
* `labelOf T d`         the label of such a declaration, which the code defines
                        (`ProgramCode.defined`).
-/

namespace Pl0Kit

/-! ## numbered declarations -/

inductive Declares where
  | var
  | proc
  deriving DecidableEq

/-- a declared name and the serial number of its label -/
structure Numbered where
  kind : Declares
  name : String
  serial : Nat
  deriving DecidableEq

/-- variables that are declared after `n` labels were made -/
def numberedVars (n : Nat) : List String → List Numbered
  | [] => []
  | x :: xs => ⟨.var, x, n + 1⟩ :: numberedVars (n + 1) xs

/-- procedures that are declared after `n` labels were made; each takes its number before its
variables -/
def numberedProcedures (n : Nat) : List (String × Block) → List (Numbered × List Numbered)
  | [] => []
  | (p, b) :: rest =>
    (⟨.proc, p, n + 1⟩, numberedVars (n + 1) b.variables) ::
      numberedProcedures (n + 1 + b.variables.length + b.body.labels) rest

/-- the procedures in the block of a program -/
def Program.procedures (p : Program) : List (Numbered × List Numbered) :=
  numberedProcedures p.block.variables.length p.block.procs

/-- a procedure is written behind its variables -/
def inTextOrder (qs : List (Numbered × List Numbered)) : List Numbered :=
  qs.flatMap fun q => q.2 ++ [q.1]

theorem inTextOrder_cons (q : Numbered × List Numbered) (qs : List (Numbered × List Numbered)) :
    inTextOrder (q :: qs) = q.2 ++ q.1 :: inTextOrder qs := by
  rw [inTextOrder, List.flatMap_cons, List.append_assoc]
  rfl

/-- the declarations of a program that get a label, in the order of its text -/
def Program.numbered (p : Program) : List Numbered :=
  numberedVars 0 p.block.variables ++ inTextOrder p.procedures

theorem map_numberedVars (n : Nat) (ys : List String) :
    (numberedVars n ys).map Numbered.name = ys := by
  induction ys generalizing n with
  | nil => rfl
  | cons y ys ih => rw [numberedVars, List.map_cons, ih]

theorem map_numberedProcedures (n : Nat) (procs : List (String × Block)) :
    (numberedProcedures n procs).map (fun q => (q.1.name, q.2.map Numbered.name)) =
      procs.map fun q => (q.1, q.2.variables) := by
  induction procs generalizing n with
  | nil => rfl
  | cons q procs ih =>
    obtain ⟨name, b⟩ := q
    rw [numberedProcedures, List.map_cons, ih, map_numberedVars]
    rfl

/-- all numbers are different, above `n` and up to `m` -/
structure NumberedIn (n m : Nat) (ds : List Numbered) : Prop where
  nodup : (ds.map Numbered.serial).Nodup
  range : ∀ d ∈ ds, n < d.serial ∧ d.serial ≤ m

namespace NumberedIn

variable {n m k : Nat} {ds es : List Numbered}

theorem nil : NumberedIn n m [] := ⟨List.nodup_nil, List.forall_mem_nil _⟩

theorem mono (h : NumberedIn n m ds) {n' m' : Nat} (hn : n' ≤ n) (hm : m ≤ m') :
    NumberedIn n' m' ds :=
  ⟨h.nodup, fun d hd => ⟨by have := h.range d hd; omega, by have := h.range d hd; omega⟩⟩

theorem append (h : NumberedIn n m ds) (h' : NumberedIn m k es) (hn : n ≤ m) (hk : m ≤ k) :
    NumberedIn n k (ds ++ es) := by
  refine ⟨?_, List.forall_mem_append.2
    ⟨(h.mono (Nat.le_refl n) hk).range, (h'.mono hn (Nat.le_refl k)).range⟩⟩
  rw [List.map_append]
  refine List.nodup_append.2 ⟨h.nodup, h'.nodup, fun a ha b hb hab => ?_⟩
  obtain ⟨d, hd, rfl⟩ := List.mem_map.1 ha
  obtain ⟨e, he, rfl⟩ := List.mem_map.1 hb
  have hlow := h.range d hd
  have hhigh := h'.range e he
  omega

theorem cons (h : NumberedIn (n + 1) m ds) (hm : n + 1 ≤ m) (kind : Declares) (x : String) :
    NumberedIn n m (⟨kind, x, n + 1⟩ :: ds) := by
  have hone : NumberedIn n (n + 1) [⟨kind, x, n + 1⟩] :=
    ⟨List.nodup_singleton _, List.forall_mem_singleton.2 ⟨Nat.lt_succ_self n, Nat.le_refl _⟩⟩
  exact hone.append h (Nat.le_succ n) hm

/-- the order of the text does not matter for the numbers -/
theorem perm (h : NumberedIn n m ds) (hperm : ds.Perm es) : NumberedIn n m es :=
  ⟨(hperm.map _).nodup_iff.1 h.nodup, fun d hd => h.range d (hperm.mem_iff.2 hd)⟩

end NumberedIn

theorem numberedIn_vars (n : Nat) (xs : List String) :
    NumberedIn n (n + xs.length) (numberedVars n xs) := by
  induction xs generalizing n with
  | nil => exact .nil
  | cons x xs ih =>
    have hxs := ih (n + 1)
    rw [List.length_cons, Nat.add_comm xs.length, ← Nat.add_assoc]
    exact hxs.cons (Nat.le_add_right _ _) .var x

theorem numberedIn_procs (n : Nat) (procs : List (String × Block)) :
    ∃ m, n ≤ m ∧ NumberedIn n m (inTextOrder (numberedProcedures n procs)) := by
  induction procs generalizing n with
  | nil => exact ⟨n, Nat.le_refl n, .nil⟩
  | cons q rest ih =>
    obtain ⟨p, b⟩ := q
    obtain ⟨m, hm, hrest⟩ := ih (n + 1 + b.variables.length + b.body.labels)
    have hvars := numberedIn_vars (n + 1) b.variables
    have hall :=
      hvars.append (hrest.mono (Nat.le_add_right _ _) (Nat.le_refl m)) (Nat.le_add_right _ _)
        (by omega)
    refine ⟨m, by omega, (hall.cons (by omega) .proc p).perm ?_⟩
    rw [numberedProcedures, inTextOrder_cons]
    exact List.perm_middle.symm

theorem numbered_serial_nodup (p : Program) : (p.numbered.map Numbered.serial).Nodup := by
  obtain ⟨m, hm, hprocs⟩ := numberedIn_procs p.block.variables.length p.block.procs
  have hvars := numberedIn_vars 0 p.block.variables
  rw [Nat.zero_add] at hvars
  exact (hvars.append hprocs (Nat.zero_le _) hm).nodup

namespace Generator

/-! ## names that code defines -/

/-- the label of a numbered declaration -/
def labelOf (T : Target) (d : Numbered) : String :=
  match d.kind with
  | .var => T.label (T.varHint ++ d.name) d.serial
  | .proc => T.label (T.procHint ++ d.name) d.serial

/-- the names that an event defines -/
def Event.defined : Event → List String
  | .cell l | .procOpen l => [l]
  | .mainOpen => ["main"]
  | _ => []

def definedBy (es : List Event) : List String := es.flatMap Event.defined

@[simp] theorem definedBy_nil : definedBy [] = [] := rfl

@[simp] theorem definedBy_cons (e : Event) (es : List Event) :
    definedBy (e :: es) = e.defined ++ definedBy es := rfl

@[simp] theorem definedBy_append (es ds : List Event) :
    definedBy (es ++ ds) = definedBy es ++ definedBy ds := List.flatMap_append

theorem definedBy_computes {es : List Event} (h : ∀ e ∈ es, e.Computes) : definedBy es = [] := by
  refine List.flatMap_eq_nil_iff.2 fun e he => ?_
  have hcomputes := h e he
  cases e with
  | cell _ | procOpen _ | mainOpen => exact hcomputes.elim
  | _ => rfl

variable {T : Target} {fs : Frames}

mutual

/-- statements take their labels one after the other and define nothing -/
theorem StatementCode.counted : ∀ {n m : Nat} {s : Statement} {es : List Event},
    StatementCode T fs n s m es → m = n + s.labels ∧ definedBy es = []
  | _, _, _, _, .assign he _ => ⟨rfl, by simp [definedBy_computes he.event, Event.defined]⟩
  | _, _, _, _, .call _ => ⟨rfl, rfl⟩
  | _, _, _, _, .block hs => hs.counted
  | n, m, .ifThen _ s, _, .ifThen hc hs => by
    obtain ⟨hm, hds⟩ := hs.counted
    refine ⟨?_, by simp [definedBy_computes hc.event, hds, Event.defined]⟩
    rw [hm, Statement.labels, Nat.add_assoc, Nat.add_comm 1]
  | n, m, .whileDo _ s, _, @StatementCode.whileDo _ _ _ _ _ _ cs ds top bottom _ _ hc hs => by
    obtain ⟨hm, hds⟩ := hs.counted
    have hloop : definedBy (loopEvents T top bottom cs ds) = [] := by
      rw [loopEvents]
      split <;> simp [definedBy_computes hc.event, hds, Event.defined]
    refine ⟨?_, by simp [hloop, Event.defined]⟩
    rw [hm, Statement.labels, Nat.add_assoc, Nat.add_comm 2]
  | _, _, _, _, .print he => ⟨rfl, by simp [definedBy_computes he.event, Event.defined]⟩

theorem StatementsCode.counted : ∀ {n m : Nat} {ss : List Statement} {es : List Event},
    StatementsCode T fs n ss m es → m = n + Statement.labels.allLabels ss ∧ definedBy es = []
  | _, _, _, _, .nil => ⟨rfl, rfl⟩
  | _, _, _, _, .cons hs hr => by
    obtain ⟨hk, hcs⟩ := hs.counted
    obtain ⟨hm, hds⟩ := hr.counted
    refine ⟨?_, by rw [definedBy_append, hcs, hds, List.append_nil]⟩
    rw [hm, hk, Statement.labels.allLabels, Nat.add_assoc]

end

theorem definedBy_cells (T : Target) (n : Nat) (xs : List String) :
    definedBy (cellEvents T n xs) = (numberedVars n xs).map (labelOf T) := by
  induction xs generalizing n with
  | nil => rfl
  | cons x xs ih =>
    rw [cellEvents, definedBy_cons, ih, numberedVars, List.map_cons]
    rfl

theorem ProcsCode.defined {n m : Nat} {f f' : Frame} {procs : List (String × Block)}
    {es : List Event} (h : ProcsCode T fs n f procs m f' es) :
    definedBy es = (inTextOrder (numberedProcedures n procs)).map (labelOf T) := by
  induction h with
  | nil => rfl
  | @cons n m k f f' p consts vars inner rest body cs ds g label hl hg hs _ ih =>
    obtain ⟨hm, hcs⟩ := hs.counted
    have hlabel : label = labelOf T ⟨.proc, p, n + 1⟩ := hl
    simp only [definedBy_cons, definedBy_append, definedBy_cells, hcs, ih, hm, Event.defined,
      List.nil_append, List.singleton_append, numberedProcedures, inTextOrder_cons, List.map_append,
      List.map_cons, Block.variables, Block.body, hlabel]

/-- a program defines the labels of its numbered declarations and the name of its own code -/
theorem ProgramCode.defined {p : Program} {m : Nat} {f : Frame} {es : List Event}
    (h : ProgramCode T p m f es) : definedBy es = p.numbered.map (labelOf T) ++ ["main"] := by
  cases h with
  | mk hprocs hs =>
    simp only [definedBy_cons, definedBy_append, definedBy_cells, hprocs.defined, hs.counted.2,
      Event.defined, List.nil_append, List.singleton_append, Program.numbered, Program.procedures,
      List.map_append, List.append_assoc, Block.variables, Block.procs, definedBy_nil]

end Generator

end Pl0Kit
