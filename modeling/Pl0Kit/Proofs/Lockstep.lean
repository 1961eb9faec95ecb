import Pl0Kit.Proofs.Execution
import Pl0Kit.Proofs.Renaming

/-!
# Two evaluations in step

Two programs of the same form, in which each block has a renaming of its own, are evaluated
together, step by step.  At each moment as many frames are open in one evaluation as in the other,
and what a frame knows as `x` its partner knows as `ρ x`, where `ρ` is the renaming of the block
that the frame was opened for (`Layer`).  Names are found in the frames of the blocks that are
running.  So a block with the renaming `ρ` can use a name `x` if all frames up to the one that has
`x` rename it as `ρ` does (`Finds`).

`Lockstep` says of two visits that they keep the frames in step.  There is a lemma for each kind of
node, `visits_alike` puts them together by induction on the budget, and `run_alike` is the result
for programs.
-/

namespace Pl0Kit.Evaluator

open Act Generator

/-! ## partners -/

section Partners

variable (P : (String → String) → Prop)

mutual

/-- blocks of the same form.  The renaming of each block is one that `P` allows, and a name that its
statement uses is declared by the block, unless all allowed renamings agree on it. -/
inductive Paired : Block → Block → Prop
  | mk {ρ : String → String} {consts : Option (List (String × Nat))} {vars : Option (List String)}
      {procs procs' : List (String × Block)} {body : Statement} (hρ : P ρ)
      (hprocs : PairedAll ρ procs procs')
      (hbody : ∀ x, Symbol.name x ∈ body.symbols →
        x ∈ (Block.mk consts vars procs body).names ∨ ∀ κ, P κ → κ x = ρ x) :
      Paired (.mk consts vars procs body)
        (.mk (renameConsts ρ consts) (renameVars ρ vars) procs' (body.rename ρ))

inductive PairedAll : (String → String) → List (String × Block) → List (String × Block) → Prop
  | nil {ρ : String → String} : PairedAll ρ [] []
  | cons {ρ : String → String} {q : String} {b b' : Block} {procs procs' : List (String × Block)} :
      Paired b b' → PairedAll ρ procs procs' → PairedAll ρ ((q, b) :: procs) ((ρ q, b') :: procs')

end

/-- the same number, or procedures with blocks of the same form -/
inductive ValueAlike : Value → Value → Prop
  | int (n : Int) : ValueAlike (.int n) (.int n)
  | procedure (q q' : String) {b b' : Block} (h : Paired P b b') :
      ValueAlike (.procedure (.str q) b.toValue) (.procedure (.str q') b'.toValue)

/-- how the names of a frame are renamed, and names that the frame is known to have -/
structure Layer where
  rename : String → String
  names : List String

/-- what the frame `f` knows as `x` its partner `g` knows as `L.rename x` -/
structure Layer.Holds (L : Layer) (f g : Frame) : Prop where
  allowed : P L.rename
  table : ∀ kind, TableAlike id L.rename (ValueAlike P) (f.table kind) (g.table kind)
  known : ∀ x ∈ L.names, ∃ kind, ((f.table kind).get? (.str x)).isSome

inductive FramesAlike : List Layer → Frames → Frames → Prop
  | nil : FramesAlike [] [] []
  | cons {L : Layer} {Γ : List Layer} {f g : Frame} {fs gs : Frames} :
      L.Holds P f g → FramesAlike Γ fs gs → FramesAlike (L :: Γ) (f :: fs) (g :: gs)

/-- two evaluations at the same place -/
structure StatesAlike (Γ : List Layer) (s t : Evaluator) : Prop where
  frames : FramesAlike P Γ s.frames t.frames
  out : s.out = t.out

/-- two evaluations that have both answered, or both stopped.  They have printed the same, and if
they stopped then both or none of them for want of fuel. -/
inductive EndsAlike {α β : Type} (Δ : List Layer) (V : α → β → Prop) :
    Except Fault α × Evaluator → Except Fault β × Evaluator → Prop
  | ok {a : α} {b : β} {s t : Evaluator} (hab : V a b) (hst : StatesAlike P Δ s t) :
      EndsAlike Δ V (.ok a, s) (.ok b, t)
  | error {e d : Fault} {s t : Evaluator} (hed : e = .outOfFuel ↔ d = .outOfFuel)
      (hout : s.out = t.out) : EndsAlike Δ V (.error e, s) (.error d, t)

/-- from frames that are in step, two visits come to frames in step and to answers related by `V` -/
def Lockstep {α β : Type} (Γ Δ : List Layer) (V : α → β → Prop) (p : Eval α) (q : Eval β) : Prop :=
  ∀ ⦃s t : Evaluator⦄, StatesAlike P Γ s t → EndsAlike P Δ V (exec p s) (exec q t)

end Partners

/-- all frames up to the one that has `x` rename it as `ρ` does -/
def Finds (ρ : String → String) (x : String) : List Layer → Prop
  | [] => True
  | L :: Γ => L.rename x = ρ x ∧ (x ∈ L.names ∨ Finds ρ x Γ)

/-- the names among some symbols can be used in a block with the renaming `ρ` -/
def Sees (ρ : String → String) (Γ : List Layer) (xs : List Symbol) : Prop :=
  ∀ x, Symbol.name x ∈ xs → Finds ρ x Γ

/-- the relation between answers that nobody looks at -/
def Unrelated {α β : Type} (_ : α) (_ : β) : Prop := True

variable {P : (String → String) → Prop} {ρ : String → String} {Γ Δ Θ : List Layer} {L : Layer}
  {f g : Frame} {fs gs : Frames} {ns : List String} {x : String} {a b v w : Value} {N : Nat}

/-! ## names that are seen -/

namespace Sees

variable {xs ys : List Symbol}

theorem mono (h : Sees ρ Γ ys) (hxs : xs ⊆ ys) : Sees ρ Γ xs := fun x hx => h x (hxs hx)

theorem split (h : Sees ρ Γ (xs ++ ys)) : Sees ρ Γ xs ∧ Sees ρ Γ ys :=
  ⟨h.mono (List.subset_append_left xs ys), h.mono (List.subset_append_right xs ys)⟩

theorem tail {x : Symbol} (h : Sees ρ Γ (x :: xs)) : Sees ρ Γ xs :=
  h.mono (List.subset_cons_self x xs)

/-- an empty frame hides nothing -/
theorem push (h : Sees ρ Γ xs) : Sees ρ (⟨ρ, []⟩ :: Γ) xs := fun x hx => ⟨rfl, .inr (h x hx)⟩

end Sees

/-- a name on which all allowed renamings agree can be used anywhere -/
theorem FramesAlike.finds (h : FramesAlike P Γ fs gs) (hx : ∀ κ, P κ → κ x = ρ x) :
    Finds ρ x Γ := by
  induction h with
  | nil => trivial
  | cons hL _ ih => exact ⟨hx _ hL.allowed, .inr ih⟩

/-! ## frames -/

namespace Layer.Holds

theorem empty (hρ : P ρ) : Layer.Holds P ⟨ρ, []⟩ {} {} :=
  ⟨hρ, fun kind _ => by cases kind <;> exact .none, fun _ hx => nomatch hx⟩

theorem mono (h : L.Holds P f g) (hns : ns ⊆ L.names) : Layer.Holds P ⟨L.rename, ns⟩ f g :=
  ⟨h.allowed, h.table, fun x hx => h.known x (hns hx)⟩

theorem unknown (h : L.Holds P f g) (hx : f.lookup (.str x) = none) : x ∉ L.names := by
  intro hmem
  obtain ⟨kind, hk⟩ := h.known x hmem
  rw [Frame.get?_of_lookup_none hx kind] at hk
  cases hk

/-- partners find partners under a name, in tables of the same kind -/
theorem lookup (h : L.Holds P f g) (x : String) :
    Option.Rel (fun r r' => r.1 = r'.1 ∧ ValueAlike P r.2 r'.2) (f.lookup (.str x))
      (g.lookup (.str (L.rename x))) := by
  have hconsts : Option.Rel (ValueAlike P) (f.consts.get? (.str x)) _ := h.table .const x
  have hvars : Option.Rel (ValueAlike P) (f.vars.get? (.str x)) _ := h.table .var x
  have hprocs : Option.Rel (ValueAlike P) (f.procs.get? (.str x)) _ := h.table .proc x
  rw [Frame.lookup, Frame.lookup]
  simp only [Frame.table] at hconsts hvars hprocs
  generalize f.consts.get? (.str x) = c, g.consts.get? (.str (L.rename x)) = c' at hconsts ⊢
  generalize f.vars.get? (.str x) = v, g.vars.get? (.str (L.rename x)) = v' at hvars ⊢
  generalize f.procs.get? (.str x) = p, g.procs.get? (.str (L.rename x)) = p' at hprocs ⊢
  cases hconsts with
  | some hab => exact .some ⟨rfl, hab⟩
  | none =>
    cases hvars with
    | some hab => exact .some ⟨rfl, hab⟩
    | none =>
      cases hprocs with
      | some hab => exact .some ⟨rfl, hab⟩
      | none => exact .none

/-- partners get one more entry -/
theorem enter (hP : ∀ κ, P κ → κ.Injective) (h : L.Holds P f g) (kind : EntryKind) (x : String)
    (hab : ValueAlike P a b) :
    Layer.Holds P ⟨L.rename, L.names ++ [x]⟩ (f.enter kind (.str x) a)
      (g.enter kind (.str (L.rename x)) b) := by
  refine ⟨h.allowed, fun kind' => ?_, fun y hy => ?_⟩
  · rw [Frame.table_enter, Frame.table_enter]
    split
    · exact (h.table kind).put Function.injective_id (hP _ h.allowed) x hab
    · exact h.table kind'
  · by_cases hyx : y = x
    · refine ⟨kind, ?_⟩
      rw [Frame.table_enter, if_pos rfl, Table.get?_put, if_pos hyx]
      rfl
    · have hy' : y ∈ L.names :=
        (List.mem_append.1 hy).resolve_right fun h' => hyx (List.mem_singleton.1 h')
      obtain ⟨kind', hk⟩ := h.known y hy'
      refine ⟨kind', ?_⟩
      rw [Frame.table_enter]
      split
      · rename_i hkind
        rw [Table.get?_put, if_neg hyx, ← hkind]
        exact hk
      · exact hk

end Layer.Holds

/-- what a name is found to be, in two evaluations -/
def FoundAlike (P : (String → String) → Prop) (r r' : EntryKind × Value × Nat) : Prop :=
  r.1 = r'.1 ∧ ValueAlike P r.2.1 r'.2.1 ∧ r.2.2 = r'.2.2

namespace FramesAlike

theorem find? (h : FramesAlike P Γ fs gs) (hx : Finds ρ x Γ) :
    Option.Rel (FoundAlike P) (fs.find? (.str x)) (gs.find? (.str (ρ x))) := by
  induction h with
  | nil => exact .none
  | @cons L Γ f g fs gs hL _ ih =>
    obtain ⟨hρ, hx⟩ := hx
    have hfound := hL.lookup x
    rw [hρ] at hfound
    rw [Frames.find?, Frames.find?]
    generalize hl : f.lookup (.str x) = l at hfound
    generalize g.lookup (.str (ρ x)) = l' at hfound
    cases hfound with
    | some hab => exact .some ⟨hab.1, hab.2, rfl⟩
    | none =>
      -- the name is not known here, so it must be found further out
      have hrest := ih (hx.resolve_left (hL.unknown hl))
      generalize Frames.find? (.str x) fs = r at hrest ⊢
      generalize Frames.find? (.str (ρ x)) gs = r' at hrest ⊢
      cases hrest with
      | none => exact .none
      | some hab => exact .some ⟨hab.1, hab.2.1, congrArg (· + 1) hab.2.2⟩

/-- a variable is changed in frames that are partners -/
theorem update (hP : ∀ κ, P κ → κ.Injective) (h : FramesAlike P Γ fs gs) (hx : Finds ρ x Γ)
    (hab : ValueAlike P a b) {kind : EntryKind} {n : Nat}
    (hfind : fs.find? (.str x) = some (kind, v, n + 1)) :
    FramesAlike P Γ (fs.modify n (·.update (.str x) a))
      (gs.modify n (·.update (.str (ρ x)) b)) := by
  induction h generalizing n with
  | nil => cases hfind
  | @cons L Γ f g fs gs hL hrest ih =>
    obtain ⟨hρ, hx⟩ := hx
    rw [Frames.find?] at hfind
    split at hfind
    · cases hfind
      have hf := (hL.enter hP .var x hab).mono (List.subset_append_left L.names [x])
      rw [hρ] at hf
      exact .cons hf hrest
    · rename_i hl
      obtain ⟨⟨kind', v', m⟩, hr, he⟩ := Option.map_eq_some_iff.1 hfind
      cases he
      obtain ⟨m, rfl⟩ := Frames.find?_pos hr
      exact .cons hL (ih (hx.resolve_left (hL.unknown hl)) hr)

end FramesAlike

/-! ## visits in step -/

theorem exec_find_str (x : String) (s : Evaluator) :
    exec (find (.str x)) s = (match s.frames.find? (.str x) with
      | some r => .ok r
      | none => .error (.undefinedName (.str x)), s) := by
  have hkey : ¬ (!(Value.str x).isKey && !s.frames.isEmpty) = true := by simp [Value.isKey]
  exact congrArg (·, s) (if_neg hkey)

namespace Lockstep

variable {α β γ δ : Type} {V : α → β → Prop} {W : γ → δ → Prop}

theorem answer {a : α} {b : β} (h : V a b) : Lockstep P Γ Γ V (pure a) (pure b) :=
  fun _ _ hst => .ok h hst

theorem fault {e d : Fault} (h : e = .outOfFuel ↔ d = .outOfFuel) :
    Lockstep P Γ Δ V (throw e) (throw d) := fun _ _ hst => .error h hst.out

theorem bind {p : Eval α} {q : Eval β} {k : α → Eval γ} {l : β → Eval δ}
    (hp : Lockstep P Γ Δ V p q) (hk : ∀ a b, V a b → Lockstep P Δ Θ W (k a) (l b)) :
    Lockstep P Γ Θ W (p >>= k) (q >>= l) := by
  intro s t hst
  have hends := hp hst
  rw [exec_bind, exec_bind]
  generalize exec p s = r, exec q t = r' at hends ⊢
  cases hends with
  | ok hab hst' => exact hk _ _ hab hst'
  | error hed hout => exact .error hed hout

/-- a node is visited with one more frame -/
theorem evaluate {V : Value → Value → Prop} (L : Layer) (hρ : P ρ)
    (h : ∀ M < N, Lockstep P (⟨ρ, []⟩ :: Γ) (L :: Γ) V (visit M v) (visit M w)) :
    Lockstep P Γ Γ (fun r r' => V r.2 r'.2) (evaluate N v) (evaluate N w) := by
  cases N with
  | zero => exact fault Iff.rfl
  | succ M =>
    have hopen : Lockstep P Γ (⟨ρ, []⟩ :: Γ) Unrelated openFrame openFrame :=
      fun s t hst => .ok trivial ⟨.cons (.empty hρ) hst.frames, hst.out⟩
    have hclose : Lockstep P (L :: Γ) Γ Unrelated closeFrame closeFrame := by
      rintro ⟨_, out⟩ ⟨_, out'⟩ ⟨hframes, hout⟩
      cases hframes with
      | cons _ hrest => exact .ok trivial ⟨hrest, hout⟩
    rw [Evaluator.evaluate, Evaluator.evaluate]
    refine bind hopen fun _ _ _ => bind (h M (Nat.lt_succ_self M)) fun r r' hr => ?_
    exact bind hclose fun _ _ _ => answer hr

/-- a node is visited by the rule for its kind -/
theorem list {V : Value → Value → Prop} {tag : String} {xs ys : List Value} (low : String)
    (hlow : tag.toLower = low)
    (h : ∀ M < N, Lockstep P Γ Δ V (apply (M + 1) low (.str tag :: xs))
      (apply (M + 1) low (.str tag :: ys))) :
    Lockstep P Γ Δ V (visit N (.list (.str tag :: xs))) (visit N (.list (.str tag :: ys))) := by
  subst hlow
  match N, h with
  | 0, _ | 1, _ => exact fault Iff.rfl
  | M + 2, h => exact h M (by omega)

theorem tuple {V : Value → Value → Prop} {tag : String} {xs ys : List Value} (low : String)
    (hlow : tag.toLower = low)
    (h : ∀ M < N, Lockstep P Γ Δ V (apply (M + 1) low (.str tag :: xs))
      (apply (M + 1) low (.str tag :: ys))) :
    Lockstep P Γ Δ V (visit N (.tuple (.str tag :: xs))) (visit N (.tuple (.str tag :: ys))) := by
  subst hlow
  match N, h with
  | 0, _ | 1, _ => exact fault Iff.rfl
  | M + 2, h => exact h M (by omega)

theorem find (hx : Finds ρ x Γ) :
    Lockstep P Γ Γ (FoundAlike P) (find (.str x)) (find (.str (ρ x))) := by
  intro s t hst
  have hfound := hst.frames.find? hx
  rw [exec_find_str, exec_find_str]
  generalize s.frames.find? (.str x) = r, t.frames.find? (.str (ρ x)) = r' at hfound ⊢
  cases hfound with
  | none => exact .error (by simp) hst.out
  | some hab => exact .ok hab hst

end Lockstep

/-! ## expressions -/

/-- what an operation answers for two pairs of partners: the same number or the same fault -/
inductive AnswersAlike : Except Fault Value → Except Fault Value → Prop
  | int (n : Int) : AnswersAlike (.ok (.int n)) (.ok (.int n))
  | error (e : Fault) : AnswersAlike (.error e) (.error e)

theorem Lockstep.lift {r r' : Except Fault Value} (h : AnswersAlike r r') :
    Lockstep P Γ Γ (ValueAlike P) (lift r) (lift r') := by
  intro s t hst
  cases h with
  | int n => exact .ok (.int n) hst
  | error e => exact .error Iff.rfl hst.out

namespace ValueAlike

variable {a' b' : Value}

/-- numbers are added, subtracted and multiplied alike, and procedures are refused alike -/
theorem arithmetic (ha : ValueAlike P a a') (hb : ValueAlike P b b') :
    AnswersAlike (a.add b) (a'.add b') ∧ AnswersAlike (a.sub b) (a'.sub b') ∧
      AnswersAlike (a.mul b) (a'.mul b') := by
  cases ha with
  | int m =>
    cases hb with
    | int n => exact ⟨.int _, .int _, .int _⟩
    | procedure => exact ⟨.error _, .error _, .error _⟩
  | procedure =>
    cases hb with
    | int | procedure => exact ⟨.error _, .error _, .error _⟩

theorem order (ha : ValueAlike P a a') (hb : ValueAlike P b b') : a.order b = a'.order b' := by
  cases ha <;> cases hb <;> rfl

theorem isOdd (ha : ValueAlike P a a') : a.isOdd = a'.isOdd := by
  cases ha <;> rfl

theorem quoted (ha : ValueAlike P a a') : a.quoted = a'.quoted := by
  cases ha <;> rfl

end ValueAlike

theorem applyTerm_alike (op : AddOp) {a' b' : Value} (ha : ValueAlike P a a')
    (hb : ValueAlike P b b') : Lockstep P Γ Γ (ValueAlike P) (applyTerm (.str op.word) a b)
      (applyTerm (.str op.word) a' b') := by
  cases op with
  | plus => exact .lift (ha.arithmetic hb).1
  | minus => exact .lift (ha.arithmetic hb).2.1

theorem applyFactor_alike (op : MulOp) {a' b' : Value} (ha : ValueAlike P a a')
    (hb : ValueAlike P b b') : Lockstep P Γ Γ (ValueAlike P) (applyFactor (.str op.word) a b)
      (applyFactor (.str op.word) a' b') := by
  cases op with
  | times => exact .lift (ha.arithmetic hb).2.2
  | divide => exact .answer ha

mutual

theorem expr_alike (hρ : P ρ) : ∀ (e : Expr) {Γ : List Layer} {N : Nat}, Sees ρ Γ e.symbols →
    Lockstep P Γ Γ (fun r r' => ValueAlike P r.2 r'.2) (evaluate N e.toValue)
      (evaluate N (e.rename ρ).toValue)
  | .mk sign first rest, Γ, N, h => by
    have hparts : Sees ρ Γ (first.symbols ++ Expr.tailSymbols rest) := by
      cases sign with
      | none => exact h
      | some op => exact h.tail
    refine .evaluate ⟨ρ, []⟩ hρ fun M _ => .list "expression" ruleNames.expression fun K _ => ?_
    have hrule : ∀ v vs, apply (K + 1) "expression"
        (.str "EXPRESSION" :: signValue sign :: v :: vs) = (do
          let p ← evaluate K v
          let total ← terms K p.2 vs
          match signValue sign with
          | .str "MINUS" => lift (total.mul (.int (-1)))
          | _ => pure total) := fun _ _ => rfl
    rw [hrule, hrule]
    refine .bind (term_alike hρ first hparts.split.1.push) fun r r' hr => ?_
    refine .bind (terms_alike hρ rest hparts.split.2.push hr) fun total total' htotal => ?_
    rcases sign with _ | _ | _
    · exact .answer htotal
    · exact .answer htotal
    · exact .lift (htotal.arithmetic (.int (-1))).2.2

theorem terms_alike (hρ : P ρ) : ∀ (rest : List (AddOp × Term)) {Γ : List Layer} {N : Nat}
    {total total' : Value}, Sees ρ Γ (Expr.tailSymbols rest) → ValueAlike P total total' →
      Lockstep P Γ Γ (ValueAlike P) (terms N total (Expr.tailValues rest))
        (terms N total' (Expr.tailValues (Expr.tailRename ρ rest)))
  | _, _, 0, _, _, _, _ => .fault Iff.rfl
  | [], _, N + 1, _, _, _, htotal => .answer htotal
  | (op, x) :: rest, Γ, N + 1, total, total', h, htotal => by
    have hparts := h.tail.split
    have hrule : ∀ a v vs, terms (N + 1) a (.tuple [.str op.word, v] :: vs) = (do
        let p ← evaluate N v
        let total ← applyTerm (.str op.word) a p.2
        terms N total vs) := fun _ _ _ => rfl
    refine (hrule _ _ _).symm ▸ (hrule _ _ _).symm ▸ ?_
    refine .bind (term_alike hρ x hparts.1) fun r r' hr => ?_
    exact .bind (applyTerm_alike op htotal hr) fun a a' ha => terms_alike hρ rest hparts.2 ha

theorem term_alike (hρ : P ρ) : ∀ (x : Term) {Γ : List Layer} {N : Nat}, Sees ρ Γ x.symbols →
    Lockstep P Γ Γ (fun r r' => ValueAlike P r.2 r'.2) (evaluate N x.toValue)
      (evaluate N (x.rename ρ).toValue)
  | .mk first rest, Γ, N, h => by
    refine .evaluate ⟨ρ, []⟩ hρ fun M _ => .list "term" ruleNames.term fun K _ => ?_
    have hrule : ∀ v vs, apply (K + 1) "term" (.str "TERM" :: v :: vs) = (do
        let p ← evaluate K v
        factors K p.2 vs) := fun _ _ => rfl
    rw [hrule, hrule]
    exact .bind (factor_alike hρ first h.split.1.push) fun r r' hr =>
      factors_alike hρ rest h.split.2.push hr

theorem factors_alike (hρ : P ρ) : ∀ (rest : List (MulOp × Factor)) {Γ : List Layer} {N : Nat}
    {total total' : Value}, Sees ρ Γ (Term.tailSymbols rest) → ValueAlike P total total' →
      Lockstep P Γ Γ (ValueAlike P) (factors N total (Term.tailValues rest))
        (factors N total' (Term.tailValues (Term.tailRename ρ rest)))
  | _, _, 0, _, _, _, _ => .fault Iff.rfl
  | [], _, N + 1, _, _, _, htotal => .answer htotal
  | (op, x) :: rest, Γ, N + 1, total, total', h, htotal => by
    have hparts := h.tail.split
    have hrule : ∀ a v vs, factors (N + 1) a (.tuple [.str op.word, v] :: vs) = (do
        let p ← evaluate N v
        let total ← applyFactor (.str op.word) a p.2
        factors N total vs) := fun _ _ _ => rfl
    refine (hrule _ _ _).symm ▸ (hrule _ _ _).symm ▸ ?_
    refine .bind (factor_alike hρ x hparts.1) fun r r' hr => ?_
    exact .bind (applyFactor_alike op htotal hr) fun a a' ha => factors_alike hρ rest hparts.2 ha

theorem factor_alike (hρ : P ρ) : ∀ (x : Factor) {Γ : List Layer} {N : Nat}, Sees ρ Γ x.symbols →
    Lockstep P Γ Γ (fun r r' => ValueAlike P r.2 r'.2) (evaluate N x.toValue)
      (evaluate N (x.rename ρ).toValue)
  | .name x, Γ, N, h => by
    refine .evaluate ⟨ρ, []⟩ hρ fun M _ => .tuple "name" ruleNames.name fun K _ => ?_
    have hrule : ∀ y, apply (K + 1) "name" [.str "NAME", .str y] = (do
        let r ← find (.str y)
        pure r.2.1) := fun _ => rfl
    rw [hrule, hrule]
    exact .bind (.find (h.push x List.mem_cons_self)) fun r r' hr => .answer hr.2.1
  | .number n, Γ, N, _ =>
    .evaluate ⟨ρ, []⟩ hρ fun M _ => .tuple "number" ruleNames.number fun K _ => .answer (.int n)
  | .paren e, Γ, N, h => expr_alike hρ e h.tail.split.1

end

/-! ## conditions -/

theorem Lockstep.same {α : Type} (r : Except Fault α) :
    Lockstep P Γ Γ Eq (Evaluator.lift r) (Evaluator.lift r) := by
  intro s t hst
  cases r with
  | ok a => exact .ok rfl hst
  | error e => exact .error Iff.rfl hst.out

theorem compareBy_alike (op : RelOp) {a' b' : Value} (ha : ValueAlike P a a')
    (hb : ValueAlike P b b') : Lockstep P Γ Γ Eq (compareBy (.str op.word) a b)
      (compareBy (.str op.word) a' b') := by
  have hsame : ∀ k : Ordering → Bool, Lockstep P Γ Γ Eq
      (lift (a.order b) >>= fun o => pure (Value.bool (k o)))
      (lift (a'.order b') >>= fun o => pure (Value.bool (k o))) := by
    intro k
    rw [ha.order hb]
    exact .bind (.same _) fun o o' ho => .answer (congrArg (fun o => Value.bool (k o)) ho)
  cases op with
  | lt => exact hsame (· == .lt)
  | lte => exact hsame (· != .gt)
  | gt => exact hsame (· == .gt)
  | gte => exact hsame (· != .lt)
  | e | ne => exact .fault Iff.rfl

theorem condition_alike (hρ : P ρ) (c : Condition) (h : Sees ρ Γ c.symbols) :
    Lockstep P Γ Γ (fun r r' => r.2 = r'.2) (evaluate N c.toValue)
      (evaluate N (c.rename ρ).toValue) := by
  cases c with
  | odd e =>
    refine .evaluate ⟨ρ, []⟩ hρ fun M _ => .tuple "odd" ruleNames.odd fun K _ => ?_
    rw [apply_odd, apply_odd]
    refine .bind (expr_alike hρ e h.tail.push) fun r r' hr => ?_
    rw [hr.isOdd]
    exact .bind (.same _) fun o o' ho => .answer (congrArg Value.bool ho)
  | compare l op r =>
    refine .evaluate ⟨ρ, []⟩ hρ fun M _ => .tuple "condition" ruleNames.condition fun K _ => ?_
    rw [apply_condition, apply_condition]
    refine .bind (expr_alike hρ l h.split.1.push) fun p p' hp => ?_
    exact .bind (expr_alike hρ r h.split.2.tail.push) fun q q' hq => compareBy_alike op hp hq

/-! ## declarations -/

namespace Lockstep

variable {vs ws : List Value}

theorem nil : Lockstep P Γ Γ Unrelated (visitEach N []) (visitEach N []) := by
  cases N with
  | zero => exact fault Iff.rfl
  | succ N => exact answer trivial

theorem node (hv : v.isNode = true) (hw : w.isNode = true)
    (h : ∀ M < N, Lockstep P Γ Δ Unrelated (visit M v) (visit M w))
    (hrest : ∀ M < N, Lockstep P Δ Θ Unrelated (visitEach M vs) (visitEach M ws)) :
    Lockstep P Γ Θ Unrelated (visitEach N (v :: vs)) (visitEach N (w :: ws)) := by
  cases N with
  | zero => exact fault Iff.rfl
  | succ N =>
    rw [visitEach, visitEach, if_pos hv, if_pos hw]
    refine bind (h N (Nat.lt_succ_self N)) fun _ _ _ => ?_
    exact bind (hrest N (Nat.lt_succ_self N)) fun _ _ _ => answer trivial

theorem skip (hv : v.isNode = false) (hw : w.isNode = false)
    (hrest : ∀ M < N, Lockstep P Γ Δ Unrelated (visitEach M vs) (visitEach M ws)) :
    Lockstep P Γ Δ Unrelated (visitEach N (v :: vs)) (visitEach N (w :: ws)) := by
  cases N with
  | zero => exact fault Iff.rfl
  | succ N =>
    rw [visitEach, visitEach, hv, hw, if_neg Bool.false_ne_true, if_neg Bool.false_ne_true]
    exact hrest N (Nat.lt_succ_self N)

/-- declarations change the innermost frames -/
theorem declare {L' : Layer} {p q : Eval Unit} {F G : Frame → Frame}
    (hp : ∀ {fs out} f, exec p ⟨f :: fs, out⟩ = (.ok (), ⟨F f :: fs, out⟩))
    (hq : ∀ {gs out} g, exec q ⟨g :: gs, out⟩ = (.ok (), ⟨G g :: gs, out⟩))
    (h : ∀ {f g}, L.Holds P f g → L'.Holds P (F f) (G g)) :
    Lockstep P (L :: Γ) (L' :: Γ) Unrelated (do p; pure Value.none) (do q; pure Value.none) := by
  rintro ⟨_, out⟩ ⟨_, out'⟩ ⟨hframes, hout⟩
  cases hframes with
  | @cons _ _ f g _ _ hL hrest =>
    rw [exec_then (hp f), exec_then (hq g)]
    exact .ok trivial ⟨.cons (h hL) hrest, hout⟩

end Lockstep

namespace Layer.Holds

theorem defineAll (hP : ∀ κ, P κ → κ.Injective) (ds : List (String × Nat))
    (h : Layer.Holds P ⟨ρ, ns⟩ f g) :
    Layer.Holds P ⟨ρ, ns ++ ds.map Prod.fst⟩ (Generator.defineAll f ds)
      (Generator.defineAll g (ds.map fun d => (ρ d.1, d.2))) := by
  induction ds generalizing ns f g with
  | nil =>
    rw [List.map_nil, List.append_nil]
    exact h
  | cons d ds ih =>
    show Layer.Holds P ⟨ρ, ns ++ d.1 :: ds.map Prod.fst⟩ _ _
    rw [List.append_cons]
    exact ih (h.enter hP .const d.1 (.int d.2))

theorem zeroAll (hP : ∀ κ, P κ → κ.Injective) (xs : List String)
    (h : Layer.Holds P ⟨ρ, ns⟩ f g) :
    Layer.Holds P ⟨ρ, ns ++ xs⟩ (Evaluator.zeroAll f xs) (Evaluator.zeroAll g (xs.map ρ)) := by
  induction xs generalizing ns f g with
  | nil =>
    rw [List.append_nil]
    exact h
  | cons x xs ih =>
    rw [List.append_cons]
    exact ih (h.enter hP .var x (.int 0))

theorem declareBlocks (hP : ∀ κ, P κ → κ.Injective) {procs procs' : List (String × Block)}
    (hprocs : PairedAll P ρ procs procs') (h : Layer.Holds P ⟨ρ, ns⟩ f g) :
    Layer.Holds P ⟨ρ, ns ++ procs.map Prod.fst⟩ (Evaluator.declareBlocks f procs)
      (Evaluator.declareBlocks g procs') := by
  induction procs generalizing ns f g procs' with
  | nil =>
    cases hprocs with
    | nil =>
      rw [List.map_nil, List.append_nil]
      exact h
  | cons p procs ih =>
    cases hprocs with
    | @cons _ q b b' _ procs' hb hrest =>
      rw [List.map_cons, List.append_cons]
      have hnext := ih hrest (h.enter hP .proc q (.procedure q (ρ q) hb))
      exact hnext

end Layer.Holds

section Declarations

variable {vs ws : List Value}

theorem consts_alike (hP : ∀ κ, P κ → κ.Injective) (consts : Option (List (String × Nat)))
    (hrest : ∀ M < N, Lockstep P (⟨ρ, ns ++ (consts.getD []).map Prod.fst⟩ :: Γ) Θ Unrelated
      (visitEach M vs) (visitEach M ws)) :
    Lockstep P (⟨ρ, ns⟩ :: Γ) Θ Unrelated (visitEach N (constsValue consts :: vs))
      (visitEach N (constsValue (renameConsts ρ consts) :: ws)) := by
  cases consts with
  | none =>
    refine .skip rfl rfl fun M hM => ?_
    have hM := hrest M hM
    rwa [Option.getD_none, List.map_nil, List.append_nil] at hM
  | some ds =>
    refine .node rfl rfl (fun M _ => .list "constants" ruleNames.consts fun K _ => ?_) hrest
    exact Lockstep.declare (exec_declareConstants ds) (exec_declareConstants _) (.defineAll hP ds)

theorem vars_alike (hP : ∀ κ, P κ → κ.Injective) (vars : Option (List String))
    (hrest : ∀ M < N, Lockstep P (⟨ρ, ns ++ vars.getD []⟩ :: Γ) Θ Unrelated
      (visitEach M vs) (visitEach M ws)) :
    Lockstep P (⟨ρ, ns⟩ :: Γ) Θ Unrelated (visitEach N (varsValue vars :: vs))
      (visitEach N (varsValue (renameVars ρ vars) :: ws)) := by
  cases vars with
  | none =>
    refine .skip rfl rfl fun M hM => ?_
    have hM := hrest M hM
    rwa [Option.getD_none, List.append_nil] at hM
  | some xs =>
    refine .node rfl rfl (fun M _ => .list "variables" ruleNames.vars fun K _ => ?_) hrest
    exact Lockstep.declare (exec_declareVariables xs) (exec_declareVariables _) (.zeroAll hP xs)

theorem procs_alike (hP : ∀ κ, P κ → κ.Injective) {procs procs' : List (String × Block)}
    (hprocs : PairedAll P ρ procs procs')
    (hrest : ∀ M < N, Lockstep P (⟨ρ, ns ++ procs.map Prod.fst⟩ :: Γ) Θ Unrelated
      (visitEach M vs) (visitEach M ws)) :
    Lockstep P (⟨ρ, ns⟩ :: Γ) Θ Unrelated
      (visitEach N (procsValue (Block.procValues procs) :: vs))
      (visitEach N (procsValue (Block.procValues procs') :: ws)) := by
  have hdeclare := fun {f g} => @Layer.Holds.declareBlocks P ρ f g ns hP procs procs' hprocs
  cases hprocs with
  | nil =>
    refine .skip rfl rfl fun M hM => ?_
    have hM := hrest M hM
    rwa [List.map_nil, List.append_nil] at hM
  | cons hb htail =>
    refine .node rfl rfl (fun M _ => .list "procedures" ruleNames.procs fun K _ => ?_) hrest
    exact Lockstep.declare (exec_declareProcedures _) (exec_declareProcedures _) hdeclare

end Declarations

/-! ## statements -/

/-- with the budget `N`, statements are visited in step with renamed ones -/
def VisitsAlike (P : (String → String) → Prop) (N : Nat) : Prop :=
  ∀ ⦃ρ : String → String⦄ ⦃t : Statement⦄ ⦃Γ : List Layer⦄, P ρ → Sees ρ Γ t.symbols →
    Lockstep P Γ Γ Unrelated (visit N t.toValue) (visit N (t.rename ρ).toValue)

/-- the statement of a block sees what the block declares, and the names on which all renamings
agree -/
theorem block_alike (hP : ∀ κ, P κ → κ.Injective) {b b' : Block} (h : Paired P b b')
    (Γ : List Layer) : ∃ ρ L, P ρ ∧ ∀ N, (∀ M < N, VisitsAlike P M) →
      Lockstep P (⟨ρ, []⟩ :: Γ) (L :: Γ) Unrelated (visit N b.toValue) (visit N b'.toValue) := by
  cases h with
  | @mk ρ consts vars procs procs' body hρ hprocs hbody =>
    refine ⟨ρ, ⟨ρ, [] ++ (consts.getD []).map Prod.fst ++ vars.getD [] ++ procs.map Prod.fst⟩, hρ,
      fun N ih s t hst => ?_⟩
    refine Lockstep.tuple "block" ruleNames.block (fun K hK => ?_) hst
    rw [apply_block, apply_block]
    refine .bind (consts_alike hP consts fun M₁ h₁ => vars_alike hP vars fun M₂ h₂ =>
      procs_alike hP hprocs fun M₃ h₃ => .node (isNode_statement body) (isNode_statement _)
        (fun M₄ h₄ => ih M₄ (by omega) hρ fun x hx => ?_) fun _ _ => .nil)
      fun _ _ _ => .answer trivial
    -- a name of the block is found in its own frame, any other one in frames that may be anyone's
    rcases hbody x hx with hnames | hagree
    · exact ⟨rfl, .inl (by simpa [Block.names] using hnames)⟩
    · obtain ⟨hframes, -⟩ := hst
      generalize s.frames = fs, t.frames = gs at hframes
      cases hframes with
      | cons _ hrest => exact ⟨rfl, .inr (hrest.finds hagree)⟩

section Statements

variable {t : Statement}

theorem evaluate_alike (ih : ∀ M < N, VisitsAlike P M) (hρ : P ρ) (h : Sees ρ Γ t.symbols) :
    Lockstep P Γ Γ Unrelated (evaluate N t.toValue) (evaluate N (t.rename ρ).toValue) :=
  .evaluate ⟨ρ, []⟩ hρ fun M hM => ih M hM hρ h.push

theorem assign_alike (hP : ∀ κ, P κ → κ.Injective) (hρ : P ρ) {e : Expr}
    (h : Sees ρ Γ (Statement.assign x e).symbols) :
    Lockstep P Γ Γ Unrelated (apply (N + 1) "set" [.str "SET", nameValue x, e.toValue])
      (apply (N + 1) "set" [.str "SET", nameValue (ρ x), (e.rename ρ).toValue]) := by
  rw [apply_set, apply_set]
  refine .bind (expr_alike hρ e h.tail.tail) fun r r' hr s t hst => ?_
  -- lookup and update belong together: what is changed is the frame that was found
  have hx : Finds ρ x Γ := h x List.mem_cons_self
  have hfound := hst.frames.find? hx
  rw [exec_bind, exec_bind, exec_find_str, exec_find_str]
  generalize hq : s.frames.find? (.str x) = q at hfound ⊢
  generalize t.frames.find? (.str (ρ x)) = q' at hfound ⊢
  cases hfound with
  | none => exact .error (by simp) hst.out
  | @some q q' hab =>
    obtain ⟨kind, v, n⟩ := q
    obtain ⟨m, rfl⟩ := Frames.find?_pos hq
    obtain ⟨-, -, hlevel⟩ := hab
    have hframes := hst.frames.update hP hx hr hq
    show EndsAlike P Γ _ (.ok Value.none, _) (.ok Value.none, _)
    refine .ok trivial ⟨?_, hst.out⟩
    rw [← hlevel]
    exact hframes

theorem print_alike (hρ : P ρ) {e : Expr} (h : Sees ρ Γ (Statement.print e).symbols) :
    Lockstep P Γ Γ Unrelated (apply (N + 1) "print" [.str "PRINT", e.toValue])
      (apply (N + 1) "print" [.str "PRINT", (e.rename ρ).toValue]) := by
  rw [apply_print, apply_print]
  refine .bind (expr_alike hρ e h.tail) fun r r' hr s t hst => ?_
  refine .ok trivial ⟨hst.frames, ?_⟩
  show s.out ++ r.2.quoted ++ "\n" = t.out ++ r'.2.quoted ++ "\n"
  rw [hst.out, hr.quoted]

/-- a call runs partners, or stops for the same reason -/
theorem call_alike (hP : ∀ κ, P κ → κ.Injective) (ih : ∀ M < N, VisitsAlike P M) {q : String}
    (h : Sees ρ Γ (Statement.call q).symbols) :
    Lockstep P Γ Γ Unrelated (apply (N + 1) "call" [.str "CALL", .str q])
      (apply (N + 1) "call" [.str "CALL", .str (ρ q)]) := by
  show Lockstep P Γ Γ Unrelated (find (.str q) >>= _) (find (.str (ρ q)) >>= _)
  refine .bind (.find (h q (List.mem_cons_of_mem _ List.mem_cons_self))) fun r r' hr => ?_
  obtain ⟨kind, v, n⟩ := r
  obtain ⟨kind', v', n'⟩ := r'
  obtain ⟨hkind, hv, -⟩ := hr
  obtain rfl : kind = kind' := hkind
  cases kind with
  | const | var => exact .fault Iff.rfl
  | proc =>
    cases hv with
    | int n => exact .fault Iff.rfl
    | procedure q q' hb =>
      -- the frame of the callee comes on top of all others, with a renaming of its own
      obtain ⟨κ, L, hκ, hblock⟩ := block_alike hP hb Γ
      have hcall : ∀ M < N, Lockstep P (⟨κ, []⟩ :: Γ) (L :: Γ) Unrelated _ _ :=
        fun M hM => hblock M fun K hK => ih K (by omega)
      exact .bind (.evaluate L hκ hcall) fun _ _ _ => .answer trivial

theorem if_alike (ih : ∀ M < N, VisitsAlike P M) (hρ : P ρ) {c : Condition}
    (h : Sees ρ Γ (Statement.ifThen c t).symbols) :
    Lockstep P Γ Γ Unrelated (apply (N + 1) "if" [.str "IF", c.toValue, t.toValue])
      (apply (N + 1) "if" [.str "IF", (c.rename ρ).toValue, (t.rename ρ).toValue]) := by
  have hparts := h.tail.split
  rw [apply_if, apply_if]
  refine .bind (condition_alike hρ c hparts.1) fun r r' hr => ?_
  rw [hr]
  split
  · exact .bind (evaluate_alike ih hρ hparts.2.tail) fun _ _ _ => .answer trivial
  · exact .answer trivial

/-- one turn of a loop in step with one turn of the other -/
theorem loop_alike (ih : ∀ M < N, VisitsAlike P M) (hρ : P ρ) {c : Condition}
    (hc : Sees ρ Γ c.symbols) (ht : Sees ρ Γ t.symbols) :
    Lockstep P Γ Γ Unrelated (loop N c.toValue t.toValue)
      (loop N (c.rename ρ).toValue (t.rename ρ).toValue) := by
  induction N with
  | zero => exact .fault Iff.rfl
  | succ N ihN =>
    have ih' : ∀ M < N, VisitsAlike P M := fun M hM => ih M (by omega)
    rw [loop_succ, loop_succ]
    refine .bind (condition_alike hρ c hc) fun r r' hr => ?_
    rw [hr]
    split
    · exact .bind (evaluate_alike ih' hρ ht) fun _ _ _ => ihN ih'
    · exact .answer trivial

theorem body_alike (ih : ∀ M < N, VisitsAlike P M) (hρ : P ρ) {ts : List Statement}
    (h : Sees ρ Γ (Statement.symbols.laterSymbols ts)) :
    Lockstep P Γ Γ Unrelated (visitEach N (Statement.toValue.bodyValues ts))
      (visitEach N (Statement.toValue.bodyValues (Statement.rename.renameAll ρ ts))) := by
  induction ts generalizing N with
  | nil => exact .nil
  | cons t ts iht =>
    have hparts := h.tail.split
    exact .node (isNode_statement t) (isNode_statement _) (fun M hM => ih M hM hρ hparts.1)
      fun M hM => iht (fun K hK => ih K (by omega)) hparts.2

/-- **Statements are visited in step with renamed ones**, whatever the budget. -/
theorem visits_alike (hP : ∀ κ, P κ → κ.Injective) (N : Nat) : VisitsAlike P N := by
  induction N using Nat.strongRecOn with
  | ind N ih =>
    intro ρ t Γ hρ h
    have ih' : ∀ {K}, K < N → ∀ M < K, VisitsAlike P M := fun hK M hM => ih M (by omega)
    cases t with
    | assign x e => exact .tuple "set" ruleNames.assign fun K _ => assign_alike hP hρ h
    | call q => exact .tuple "call" ruleNames.call fun K hK => call_alike hP (ih' hK) h
    | block ts =>
      refine .list "begin" ruleNames.sequence fun K hK => ?_
      rw [apply_begin, apply_begin]
      refine .bind (body_alike (ih' hK) hρ fun x hx => h x ?_) fun _ _ _ => .answer trivial
      cases ts with
      | nil => cases hx
      | cons t ts =>
        rw [Statement.symbols]
        rw [Statement.symbols.laterSymbols] at hx
        grind
    | ifThen c t => exact .tuple "if" ruleNames.ifThen fun K hK => if_alike (ih' hK) hρ h
    | whileDo c t =>
      have hparts := h.tail.split
      refine .tuple "while" ruleNames.whileDo fun K hK => ?_
      rw [apply_while, apply_while]
      exact .bind (loop_alike (ih' hK) hρ hparts.1 hparts.2.tail) fun _ _ _ => .answer trivial
    | print e => exact .tuple "print" ruleNames.print fun K _ => print_alike hρ h

end Statements

/-- **Programs with partners run in step.** -/
theorem run_alike (hP : ∀ κ, P κ → κ.Injective) {p p' : Program} (h : Paired P p.block p'.block)
    (fuel : Nat) : EndsAlike P [] Unrelated (run fuel p.toValue {}) (run fuel p'.toValue {}) := by
  obtain ⟨ρ, L, hρ, hblock⟩ := block_alike hP h []
  have hnode : ∀ b : Block, b.toValue.isNode = true := by
    intro b
    cases b
    rfl
  have hvisit : ∀ M < fuel, Lockstep P [⟨ρ, []⟩] [L] Unrelated (visit M p.toValue)
      (visit M p'.toValue) := by
    refine fun M _ => .tuple "program" ruleNames.program fun K _ => ?_
    rw [apply_program, apply_program]
    refine .bind (.node (hnode _) (hnode _) (fun M _ => ?_) fun _ _ => .nil)
      fun _ _ _ => .answer trivial
    exact hblock M fun K _ => visits_alike hP K
  exact Lockstep.evaluate L hρ hvisit ⟨.nil, rfl⟩

end Pl0Kit.Evaluator
