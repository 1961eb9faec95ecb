import Pl0Kit.Proofs.Evaluation
import Pl0Kit.Proofs.Tables

/-!
# Execution of statements

While the statement of a program without local declarations is evaluated, the frames are empty ones
and below them the frame of the program (`nested`).  That frame shows a scope and a store
(`Frame.Shows`), and `visit_runs` proves, by induction on the budget, that evaluating a statement
does what the relation `Runs` says: loops and calls use the statement again with a smaller budget.
-/

namespace Pl0Kit

/-! ## scopes and frames -/

namespace Scope

/-- what kind of thing a name stands for -/
def kind (S : Scope) (x : String) : Option EntryKind :=
  if (S.const x).isSome then some .const
  else if x ∈ S.vars then some .var
  else if (S.block x).isSome then some .proc
  else none

variable {S : Scope} {x : String}

theorem const_of_kind (h : S.kind x = some .const) : ∃ n, S.const x = some n := by
  rw [kind] at h
  split at h
  · rename_i hc
    exact Option.isSome_iff_exists.1 hc
  · split at h
    · cases h
    · split at h <;> cases h

theorem var_of_kind (h : S.kind x = some .var) : S.const x = none ∧ x ∈ S.vars := by
  rw [kind] at h
  split at h
  · cases h
  · rename_i hc
    split at h
    · rename_i hv
      exact ⟨Option.not_isSome_iff_eq_none.1 hc, hv⟩
    · split at h <;> cases h

theorem proc_of_kind (h : S.kind x = some .proc) :
    S.const x = none ∧ x ∉ S.vars ∧ ∃ b, S.block x = some b := by
  rw [kind] at h
  split at h
  · cases h
  · rename_i hc
    split at h
    · cases h
    · rename_i hv
      split at h
      · rename_i hb
        exact ⟨Option.not_isSome_iff_eq_none.1 hc, hv, Option.isSome_iff_exists.1 hb⟩
      · cases h

end Scope

/-- the frame of a program that is being evaluated: variables hold the values of a store -/
structure Frame.Shows (S : Scope) (σ : Store) (F : Frame) : Prop where
  consts : ∀ x, F.consts.get? (.str x) = (S.const x).map .int
  vars : F.vars = .ofNames S.vars fun x => .int (σ x)
  procs : ∀ p, F.procs.get? (.str p) = (S.block p).map fun b => .procedure (.str p) b.toValue

namespace Frame.Shows

variable {S : Scope} {σ : Store} {F : Frame} {x : String}

theorem get?_var (h : F.Shows S σ) (x : String) :
    F.vars.get? (.str x) = if x ∈ S.vars then some (.int (σ x)) else none := by
  rw [h.vars, Table.get?_ofNames]

theorem lookup_const (h : F.Shows S σ) (hx : S.kind x = some .const) :
    F.lookup (.str x) = some (.const, .int (S.value σ x)) := by
  obtain ⟨n, hn⟩ := Scope.const_of_kind hx
  rw [Frame.lookup, h.consts, Scope.value, hn]
  rfl

theorem lookup_var (h : F.Shows S σ) (hx : S.kind x = some .var) :
    F.lookup (.str x) = some (.var, .int (S.value σ x)) := by
  obtain ⟨hc, hv⟩ := Scope.var_of_kind hx
  rw [Frame.lookup, h.consts, h.get?_var, if_pos hv, Scope.value, hc]
  rfl

theorem lookup_proc (h : F.Shows S σ) (hx : S.kind x = some .proc) :
    ∃ b, S.block x = some b ∧ F.lookup (.str x) = some (.proc, .procedure (.str x) b.toValue) := by
  obtain ⟨hc, hv, b, hb⟩ := Scope.proc_of_kind hx
  refine ⟨b, hb, ?_⟩
  rw [Frame.lookup, h.consts, h.get?_var, if_neg hv, h.procs, hc, hb]
  rfl

theorem update (h : F.Shows S σ) (hx : x ∈ S.vars) (n : Int) :
    (F.update (.str x) (.int n)).Shows S (Function.update σ x n) := by
  refine ⟨h.consts, ?_, h.procs⟩
  show F.vars.put (.str x) (.int n) = _
  rw [h.vars, Table.put_ofNames S.nodup hx]
  exact congrArg _ (Function.comp_update Value.int σ x n).symm

end Frame.Shows

/-! ## frames during evaluation -/

/-- the frames while a statement is evaluated inside `k` others -/
def nested : Nat → Frame → Frames
  | 0, F => [F]
  | k + 1, F => {} :: nested k F

theorem find?_nested (k : Nat) (F : Frame) (x : Value) :
    (nested k F).find? x = (F.lookup x).map fun (kind, v) => (kind, v, k + 1) := by
  induction k with
  | zero =>
    rw [nested, Frames.find?]
    cases F.lookup x <;> rfl
  | succ k ih =>
    rw [nested, Frames.find?_push, ih, Option.map_map]
    rfl

theorem modify_nested (k : Nat) (F : Frame) (g : Frame → Frame) :
    (nested k F).modify k g = nested k (g F) := by
  induction k with
  | zero => rfl
  | succ k ih => rw [nested, List.modify_succ_cons, ih, nested]

namespace Evaluator

open Act Generator

/-! ## blocks -/

/-- variables start with the value zero -/
def zeroAll (G : Frame) (xs : List String) : Frame :=
  xs.foldl (fun f x => f.update (.str x) (.int 0)) G

def declareBlocks (G : Frame) (procs : List (String × Block)) : Frame :=
  procs.foldl (fun f p => f.declare (.str p.1) (.procedure (.str p.1) p.2.toValue)) G

/-- a frame after the declarations of a block -/
def opened (G : Frame) : Block → Frame
  | .mk consts vars procs _ =>
    declareBlocks (zeroAll (defineAll G (consts.getD [])) (vars.getD [])) procs

theorem opened_bare {b : Block} (h : b.Bare) (G : Frame) : opened G b = G := by
  obtain ⟨consts, vars, procs, body⟩ := b
  obtain ⟨hc, hv, rfl⟩ := h
  rw [opened, hc, hv]
  rfl

section Blocks

variable {N : Nat} {G : Frame} {gs : Frames} {out : String} {s s' : Evaluator} {v : Value}
  {vs rs : List Value}

theorem exec_declareConstants (ds : List (String × Nat)) (G : Frame) :
    exec (declareConstants (ds.map defineValue)) ⟨G :: gs, out⟩ =
      (.ok (), ⟨defineAll G ds :: gs, out⟩) := by
  induction ds generalizing G with
  | nil => rfl
  | cons d ds ih => exact ih (G.define (.str d.1) (.int d.2))

theorem exec_declareVariables (xs : List String) (G : Frame) :
    exec (declareVariables (xs.map nameValue)) ⟨G :: gs, out⟩ =
      (.ok (), ⟨zeroAll G xs :: gs, out⟩) := by
  induction xs generalizing G with
  | nil => rfl
  | cons x xs ih => exact ih (G.update (.str x) (.int 0))

theorem exec_declareProcedures (procs : List (String × Block)) (G : Frame) :
    exec (declareProcedures (Block.procValues procs)) ⟨G :: gs, out⟩ =
      (.ok (), ⟨declareBlocks G procs :: gs, out⟩) := by
  induction procs generalizing G with
  | nil => rfl
  | cons p procs ih => exact ih (G.declare (.str p.1) (.procedure (.str p.1) p.2.toValue))

theorem visitEach_node (hv : v.isNode = true)
    (h : exec (visitEach N (v :: vs)) s = (.ok rs, s')) :
    ∃ M r rs' s₁, N = M + 1 ∧ exec (visit M v) s = (.ok r, s₁) ∧
      exec (visitEach M vs) s₁ = (.ok rs', s') := by
  cases N with
  | zero => cases h
  | succ M =>
    rw [visitEach, if_pos hv] at h
    obtain ⟨r, s₁, h₁, h⟩ := exec_bind_ok.1 h
    obtain ⟨rs', s₂, h₂, h⟩ := exec_bind_ok.1 h
    cases h
    exact ⟨M, r, rs', s₁, rfl, h₁, h₂⟩

theorem visitEach_skip (hv : v.isNode = false)
    (h : exec (visitEach N (v :: vs)) s = (.ok rs, s')) :
    ∃ M, N = M + 1 ∧ exec (visitEach M vs) s = (.ok rs, s') := by
  cases N with
  | zero => cases h
  | succ M =>
    rw [visitEach, hv, if_neg Bool.false_ne_true] at h
    exact ⟨M, rfl, h⟩

/-- declarations that turn the innermost frame into `G'` -/
theorem visitEach_list {G' : Frame} {tag : String} {xs : List Value} {p : Eval Unit} (low : String)
    (hlow : tag.toLower = low)
    (hrule : ∀ n, apply (n + 1) low (.str tag :: xs) = (do p; pure .none))
    (hp : exec p ⟨G :: gs, out⟩ = (.ok (), ⟨G' :: gs, out⟩))
    (h : exec (visitEach N (.list (.str tag :: xs) :: vs)) ⟨G :: gs, out⟩ = (.ok rs, s')) :
    ∃ M rs', N = M + 1 ∧ exec (visitEach M vs) ⟨G' :: gs, out⟩ = (.ok rs', s') := by
  obtain ⟨M, r, rs', s₁, hN, h₁, h₂⟩ := visitEach_node rfl h
  obtain ⟨K, -, h₁⟩ := visit_list_ok low hlow h₁
  rw [hrule, exec_then hp] at h₁
  cases h₁
  exact ⟨M, rs', hN, h₂⟩

theorem visitEach_consts (consts : Option (List (String × Nat)))
    (h : exec (visitEach N (constsValue consts :: vs)) ⟨G :: gs, out⟩ = (.ok rs, s')) :
    ∃ M rs', N = M + 1 ∧ exec (visitEach M vs) ⟨defineAll G (consts.getD []) :: gs, out⟩ =
      (.ok rs', s') := by
  cases consts with
  | none =>
    obtain ⟨M, hN, h⟩ := visitEach_skip rfl h
    exact ⟨M, rs, hN, h⟩
  | some ds =>
    exact visitEach_list "constants" ruleNames.consts (fun _ => rfl) (exec_declareConstants ds G) h

theorem visitEach_vars (vars : Option (List String))
    (h : exec (visitEach N (varsValue vars :: vs)) ⟨G :: gs, out⟩ = (.ok rs, s')) :
    ∃ M rs', N = M + 1 ∧ exec (visitEach M vs) ⟨zeroAll G (vars.getD []) :: gs, out⟩ =
      (.ok rs', s') := by
  cases vars with
  | none =>
    obtain ⟨M, hN, h⟩ := visitEach_skip rfl h
    exact ⟨M, rs, hN, h⟩
  | some xs =>
    exact visitEach_list "variables" ruleNames.vars (fun _ => rfl) (exec_declareVariables xs G) h

theorem visitEach_procs (procs : List (String × Block))
    (h : exec (visitEach N (procsValue (Block.procValues procs) :: vs)) ⟨G :: gs, out⟩ =
      (.ok rs, s')) :
    ∃ M rs', N = M + 1 ∧ exec (visitEach M vs) ⟨declareBlocks G procs :: gs, out⟩ =
      (.ok rs', s') := by
  cases procs with
  | nil =>
    obtain ⟨M, hN, h⟩ := visitEach_skip rfl h
    exact ⟨M, rs, hN, h⟩
  | cons p procs =>
    exact visitEach_list "procedures" ruleNames.procs (fun _ => rfl)
      (exec_declareProcedures (p :: procs) G) h

/-- the statement of a block is visited after the declarations -/
theorem visit_block {b : Block} (h : exec (visit N b.toValue) ⟨G :: gs, out⟩ = (.ok v, s')) :
    ∃ M v', M < N ∧ exec (visit M b.body.toValue) ⟨opened G b :: gs, out⟩ = (.ok v', s') := by
  obtain ⟨consts, vars, procs, body⟩ := b
  obtain ⟨M, hN, h⟩ := visit_tuple_ok "block" ruleNames.block h
  rw [apply_block] at h
  obtain ⟨rs, s₁, h₁, hgather⟩ := exec_bind_ok.1 h
  cases hgather
  obtain ⟨M₁, _, hM₁, h₁⟩ := visitEach_consts consts h₁
  obtain ⟨M₂, _, hM₂, h₁⟩ := visitEach_vars vars h₁
  obtain ⟨M₃, _, hM₃, h₁⟩ := visitEach_procs procs h₁
  obtain ⟨M₄, r, rs', s₂, hM₄, hbody, hrest⟩ := visitEach_node (isNode_statement body) h₁
  cases M₄ with
  | zero => cases hrest
  | succ K =>
    cases hrest
    exact ⟨K + 1, r, by omega, hbody⟩

end Blocks

/-! ## statements -/

/-- what is known of a scope: names in the frames `fs` are of the kind they have there, and
procedures are compiled in the same frames and have no declarations -/
structure Covers (T : Target) (fs : Frames) (S : Scope) : Prop where
  kind : ∀ ⦃x : String⦄ ⦃kind : EntryKind⦄ ⦃v : Value⦄ ⦃n : Nat⦄,
    fs.find? (.str x) = some (kind, v, n) → S.kind x = some kind
  bare : ∀ ⦃p : String⦄ ⦃b : Block⦄, S.block p = some b → b.Bare
  body : ∀ ⦃p : String⦄ ⦃b : Block⦄, S.block p = some b →
    ∃ n m es, StatementCode T fs n b.body m es

/-- evaluation has ended with a store and an output that `R` allows -/
def Ends (S : Scope) (R : Store → String → Prop) (k : Nat) (out : String) (s : Evaluator) : Prop :=
  ∃ σ' F' o, R σ' o ∧ F'.Shows S σ' ∧ s = ⟨nested k F', out ++ o⟩

/-- with the budget `N`, visiting a statement does what `Runs` says -/
def VisitRuns (T : Target) (fs : Frames) (S : Scope) (N : Nat) : Prop :=
  ∀ ⦃t : Statement⦄ ⦃n m : Nat⦄ ⦃es : List Event⦄, StatementCode T fs n t m es →
    ∀ ⦃σ : Store⦄ ⦃F : Frame⦄ ⦃k : Nat⦄ ⦃out : String⦄ ⦃v : Value⦄ ⦃s : Evaluator⦄, F.Shows S σ →
      exec (visit N t.toValue) ⟨nested k F, out⟩ = (.ok v, s) → Ends S (Runs S t σ) k out s

section Statements

variable {T : Target} {fs : Frames} {S : Scope} {σ : Store} {F : Frame} {N k n m : Nat}
  {out : String} {s : Evaluator} {v : Value} {es : List Event}

theorem Covers.reads (hS : Covers T fs S) (hF : F.Shows S σ) (k : Nat) :
    Reads fs (nested k F) (S.value σ) := by
  intro x kind v n hx hkind
  have hk := hS.kind hx
  rw [find?_nested]
  cases kind with
  | const => exact ⟨.const, k + 1, by rw [hF.lookup_const hk]; rfl⟩
  | var => exact ⟨.var, k + 1, by rw [hF.lookup_var hk]; rfl⟩
  | proc => exact absurd rfl hkind

/-- closing a frame that was opened for a statement -/
theorem Ends.close {R : Store → String → Prop} {f : Frame}
    (h : Ends S R (k + 1) out ⟨f :: s.frames, s.out⟩) : Ends S R k out s := by
  obtain ⟨σ', F', o, hR, hF', hs⟩ := h
  obtain ⟨hframes, hout⟩ := Evaluator.mk.inj hs
  obtain ⟨-, hframes⟩ := List.cons.inj hframes
  obtain ⟨frames, out'⟩ := s
  exact ⟨σ', F', o, hR, hF', by rw [← hframes, ← hout]⟩

/-- a frame of its own makes no difference to a statement -/
theorem evaluate_runs (ih : ∀ M < N, VisitRuns T fs S M) {t : Statement}
    (hcode : StatementCode T fs n t m es) (hF : F.Shows S σ) {r : Frame × Value}
    (h : exec (evaluate N t.toValue) ⟨nested k F, out⟩ = (.ok r, s)) :
    Ends S (Runs S t σ) k out s := by
  obtain ⟨M, rfl, hvisit⟩ := evaluate_ok h
  exact (ih M (Nat.lt_succ_self M) hcode hF (k := k + 1) hvisit).close

theorem assign_runs (hS : Covers T fs S) {x : String} {e : Expr}
    (hcode : StatementCode T fs n (.assign x e) m es) (hF : F.Shows S σ)
    (h : exec (apply (N + 1) "set" [.str "SET", nameValue x, e.toValue]) ⟨nested k F, out⟩ =
      (.ok v, s)) : Ends S (Runs S (.assign x e) σ) k out s := by
  cases hcode with
  | @assign _ j _ _ w cs he hx =>
    rw [apply_set] at h
    obtain ⟨r, s₁, h₁, hnext⟩ := exec_bind_ok.1 h
    obtain ⟨rfl, hr⟩ := answers_expr he (hS.reads hF k) rfl h₁
    have hkind := hS.kind hx
    have hfind : (nested k F).find? (.str x) = some (.var, .int (S.value σ x), k + 1) := by
      rw [find?_nested, hF.lookup_var hkind]
      rfl
    rw [exec_then (exec_find hfind), hr] at hnext
    cases hnext
    refine ⟨_, _, "", .assign, hF.update (Scope.var_of_kind hkind).2 _, ?_⟩
    rw [String.append_empty]
    exact congrArg (Evaluator.mk · out) (modify_nested k F _)

theorem print_runs (hS : Covers T fs S) {e : Expr} (hcode : StatementCode T fs n (.print e) m es)
    (hF : F.Shows S σ)
    (h : exec (apply (N + 1) "print" [.str "PRINT", e.toValue]) ⟨nested k F, out⟩ = (.ok v, s)) :
    Ends S (Runs S (.print e) σ) k out s := by
  cases hcode with
  | print he =>
    rw [apply_print] at h
    obtain ⟨r, s₁, h₁, hnext⟩ := exec_bind_ok.1 h
    obtain ⟨rfl, hr⟩ := answers_expr he (hS.reads hF k) rfl h₁
    rw [hr] at hnext
    cases hnext
    refine ⟨σ, F, _, .print, hF, ?_⟩
    rw [← String.append_assoc]
    rfl

/-- a call runs the body of the procedure, in a frame that stays empty -/
theorem call_runs (hS : Covers T fs S) (ih : ∀ M < N, VisitRuns T fs S M) {p : String}
    (hcode : StatementCode T fs n (.call p) m es) (hF : F.Shows S σ)
    (h : exec (apply (N + 1) "call" [.str "CALL", .str p]) ⟨nested k F, out⟩ = (.ok v, s)) :
    Ends S (Runs S (.call p) σ) k out s := by
  cases hcode with
  | call hp =>
    obtain ⟨b, hb, hlookup⟩ := hF.lookup_proc (hS.kind hp)
    have hfind : exec (find (.str p)) ⟨nested k F, out⟩ =
        (.ok (.proc, .procedure (.str p) b.toValue, k + 1), ⟨nested k F, out⟩) := by
      refine exec_find ?_
      rw [find?_nested, hlookup]
      rfl
    have hrule : exec (do
        let r ← evaluate N b.toValue
        pure r.2) ⟨nested k F, out⟩ = (.ok v, s) := (exec_then hfind).symm.trans h
    obtain ⟨r, s₁, h₁, hnext⟩ := exec_bind_ok.1 hrule
    cases hnext
    obtain ⟨M, rfl, hvisit⟩ := evaluate_ok h₁
    obtain ⟨M', v', hM', hbody⟩ := visit_block hvisit
    rw [opened_bare (hS.bare hb)] at hbody
    obtain ⟨n', m', es', hcode⟩ := hS.body hb
    obtain ⟨σ', F', o, hruns, hend⟩ := (ih M' (by omega) hcode hF (k := k + 1) hbody).close
    exact ⟨σ', F', o, .call hb hruns, hend⟩

theorem if_runs (hS : Covers T fs S) (ih : ∀ M < N, VisitRuns T fs S M) {c : Condition}
    {t : Statement} (hcode : StatementCode T fs n (.ifThen c t) m es) (hF : F.Shows S σ)
    (h : exec (apply (N + 1) "if" [.str "IF", c.toValue, t.toValue]) ⟨nested k F, out⟩ =
      (.ok v, s)) : Ends S (Runs S (.ifThen c t) σ) k out s := by
  cases hcode with
  | ifThen hc ht =>
    rw [apply_if] at h
    obtain ⟨r, s₁, h₁, hnext⟩ := exec_bind_ok.1 h
    obtain ⟨rfl, hr⟩ := answers_condition hc (hS.reads hF k) rfl h₁
    rw [hr] at hnext
    cases hd : c.denote (S.value σ) with
    | true =>
      rw [hd] at hnext
      have hthen : exec (evaluate N t.toValue >>= fun _ => pure .none) ⟨nested k F, out⟩ =
        (.ok v, s) := hnext
      obtain ⟨r', s₂, h₂, hend⟩ := exec_bind_ok.1 hthen
      cases hend
      obtain ⟨σ', F', o, hruns, hend⟩ := evaluate_runs ih ht hF h₂
      exact ⟨σ', F', o, .ifTrue hd hruns, hend⟩
    | false =>
      rw [hd] at hnext
      cases hnext
      exact ⟨σ, F, "", .ifFalse hd, hF, by rw [String.append_empty]⟩

theorem loop_runs (hS : Covers T fs S) (ih : ∀ M < N, VisitRuns T fs S M) {c : Condition}
    {t : Statement} {cs ds : List Event} (hc : ConditionCode T fs c cs)
    (ht : StatementCode T fs n t m ds) (hF : F.Shows S σ) {u : Unit}
    (h : exec (loop N c.toValue t.toValue) ⟨nested k F, out⟩ = (.ok u, s)) :
    Ends S (Runs S (.whileDo c t) σ) k out s := by
  induction N generalizing σ F out with
  | zero => cases h
  | succ N ihN =>
    have ih' : ∀ M < N, VisitRuns T fs S M := fun M hM => ih M (by omega)
    rw [loop_succ] at h
    obtain ⟨r, s₁, h₁, hnext⟩ := exec_bind_ok.1 h
    obtain ⟨rfl, hr⟩ := answers_condition hc (hS.reads hF k) rfl h₁
    rw [hr] at hnext
    cases hd : c.denote (S.value σ) with
    | true =>
      rw [hd] at hnext
      have hturn : exec (do
          let _ ← evaluate N t.toValue
          loop N c.toValue t.toValue) ⟨nested k F, out⟩ = (.ok u, s) := hnext
      obtain ⟨r', s₂, h₂, hloop⟩ := exec_bind_ok.1 hturn
      obtain ⟨σ₁, F₁, o₁, hruns₁, hF₁, rfl⟩ := evaluate_runs ih' ht hF h₂
      obtain ⟨σ₂, F₂, o₂, hruns₂, hF₂, rfl⟩ := ihN ih' hF₁ hloop
      exact ⟨σ₂, F₂, o₁ ++ o₂, .whileTrue hd hruns₁ hruns₂, hF₂, by rw [String.append_assoc]⟩
    | false =>
      rw [hd] at hnext
      cases hnext
      exact ⟨σ, F, "", .whileFalse hd, hF, by rw [String.append_empty]⟩

theorem visitEach_runs (ih : ∀ M < N, VisitRuns T fs S M) {ts : List Statement}
    (hcode : StatementsCode T fs n ts m es) (hF : F.Shows S σ) {vs : List Value}
    (h : exec (visitEach N (Statement.toValue.bodyValues ts)) ⟨nested k F, out⟩ = (.ok vs, s)) :
    Ends S (RunsAll S ts σ) k out s := by
  induction ts generalizing N σ F out n es vs with
  | nil =>
    cases N with
    | zero => cases h
    | succ N =>
      cases h
      exact ⟨σ, F, "", .nil, hF, by rw [String.append_empty]⟩
  | cons t ts iht =>
    cases hcode with
    | cons ht hts =>
      obtain ⟨M, r, rs, s₁, rfl, h₁, h₂⟩ := visitEach_node (isNode_statement t) h
      obtain ⟨σ₁, F₁, o₁, hruns₁, hF₁, rfl⟩ := ih M (Nat.lt_succ_self M) ht hF h₁
      obtain ⟨σ₂, F₂, o₂, hruns₂, hF₂, rfl⟩ := iht (fun K hK => ih K (by omega)) hts hF₁ h₂
      exact ⟨σ₂, F₂, o₁ ++ o₂, .cons hruns₁ hruns₂, hF₂, by rw [String.append_assoc]⟩

/-- **The evaluator follows the meaning of statements**, whatever its budget. -/
theorem visit_runs (hS : Covers T fs S) (N : Nat) : VisitRuns T fs S N := by
  induction N using Nat.strongRecOn with
  | ind N ih =>
    intro t n m es hcode σ F k out v s hF h
    cases t with
    | assign x e =>
      obtain ⟨M, -, h⟩ := visit_tuple_ok "set" ruleNames.assign h
      exact assign_runs hS hcode hF h
    | call p =>
      obtain ⟨M, hM, h⟩ := visit_tuple_ok "call" ruleNames.call h
      exact call_runs hS (fun K hK => ih K (by omega)) hcode hF h
    | block ts =>
      obtain ⟨M, hM, h⟩ := visit_list_ok "begin" ruleNames.sequence h
      rw [apply_begin] at h
      obtain ⟨rs, s₁, h₁, hgather⟩ := exec_bind_ok.1 h
      cases hgather
      cases hcode with
      | block hts =>
        obtain ⟨σ', F', o, hruns, hend⟩ := visitEach_runs (fun K hK => ih K (by omega)) hts hF h₁
        exact ⟨σ', F', o, .block hruns, hend⟩
    | ifThen c t =>
      obtain ⟨M, hM, h⟩ := visit_tuple_ok "if" ruleNames.ifThen h
      exact if_runs hS (fun K hK => ih K (by omega)) hcode hF h
    | whileDo c t =>
      obtain ⟨M, hM, h⟩ := visit_tuple_ok "while" ruleNames.whileDo h
      rw [apply_while] at h
      obtain ⟨u, s₁, h₁, hend⟩ := exec_bind_ok.1 h
      cases hend
      cases hcode with
      | whileDo _ _ hc ht => exact loop_runs hS (fun K hK => ih K (by omega)) hc ht hF h₁
    | print e =>
      obtain ⟨M, -, h⟩ := visit_tuple_ok "print" ruleNames.print h
      exact print_runs hS hcode hF h

end Statements

/-! ## programs -/

section Programs

theorem get?_defineAll (ds : List (String × Nat)) (x : String) {G : Frame} {r : Option Int}
    (h : G.consts.get? (.str x) = r.map .int) :
    (defineAll G ds).consts.get? (.str x) =
      (ds.foldl (fun r d => if x = d.1 then some (d.2 : Int) else r) r).map .int := by
  induction ds generalizing G r with
  | nil => exact h
  | cons d ds ih =>
    refine ih (G := G.define (.str d.1) (.int d.2)) ?_
    rw [Frame.define, Table.get?_put, h]
    by_cases hx : x = d.1 <;> simp [hx]

theorem vars_zeroAll (xs : List String) {G : Frame} {ys : List String} (hnd : ys.Nodup)
    (h : G.vars = .ofNames ys fun _ => .int 0) :
    (zeroAll G xs).vars = .ofNames (xs.foldl addNew ys) fun _ => .int 0 := by
  induction xs generalizing G ys with
  | nil => exact h
  | cons x xs ih =>
    refine ih (G := G.update (.str x) (.int 0)) (nodup_foldl_addNew [x] hnd) ?_
    show G.vars.put (.str x) (.int 0) = _
    rw [h, Table.put_ofNames_addNew hnd, Function.update_eq_self]

theorem get?_declareBlocks {procs : List (String × Block)} (hnd : (procs.map Prod.fst).Nodup)
    (G : Frame) (p : String) :
    (declareBlocks G procs).procs.get? (.str p) =
      ((procs.lookup p).map fun b => .procedure (.str p) b.toValue).or (G.procs.get? (.str p)) := by
  induction procs generalizing G with
  | nil => rfl
  | cons q procs ih =>
    obtain ⟨q, b⟩ := q
    rw [List.map_cons, List.nodup_cons] at hnd
    refine (ih hnd.2 (G.declare (.str q) (.procedure (.str q) b.toValue))).trans ?_
    rw [Frame.declare, Table.get?_put, List.lookup_cons]
    by_cases hp : p = q
    · subst hp
      have hnone : procs.lookup p = none := List.lookup_eq_none_iff.2 fun e he => by
        have hne : p ≠ e.1 := fun heq => hnd.1 (heq ▸ List.mem_map.2 ⟨e, he, rfl⟩)
        simpa using hne
      simp [hnone]
    · have hbeq : (p == q) = false := beq_eq_false_iff_ne.2 hp
      simp [hbeq, hp]

theorem defineAll_keeps (ds : List (String × Nat)) (G : Frame) :
    (defineAll G ds).vars = G.vars ∧ (defineAll G ds).procs = G.procs := by
  induction ds generalizing G with
  | nil => exact ⟨rfl, rfl⟩
  | cons d ds ih => exact ih (G.define (.str d.1) (.int d.2))

theorem zeroAll_keeps (xs : List String) (G : Frame) :
    (zeroAll G xs).consts = G.consts ∧ (zeroAll G xs).procs = G.procs := by
  induction xs generalizing G with
  | nil => exact ⟨rfl, rfl⟩
  | cons x xs ih => exact ih (G.update (.str x) (.int 0))

theorem declareBlocks_keeps (procs : List (String × Block)) (G : Frame) :
    (declareBlocks G procs).consts = G.consts ∧ (declareBlocks G procs).vars = G.vars := by
  induction procs generalizing G with
  | nil => exact ⟨rfl, rfl⟩
  | cons p procs ih => exact ih (G.declare (.str p.1) (.procedure (.str p.1) p.2.toValue))

/-- the declarations of a block make its scope, with all variables zero -/
theorem opened_shows {b : Block} (hnd : (b.procs.map Prod.fst).Nodup) :
    (opened {} b).Shows b.scope fun _ => 0 := by
  obtain ⟨consts, vars, procs, body⟩ := b
  obtain ⟨hvars, hprocs⟩ := defineAll_keeps (consts.getD []) {}
  obtain ⟨hconsts', hprocs'⟩ := zeroAll_keeps (vars.getD []) (defineAll {} (consts.getD []))
  obtain ⟨hconsts'', hvars''⟩ :=
    declareBlocks_keeps procs (zeroAll (defineAll {} (consts.getD [])) (vars.getD []))
  refine ⟨fun x => ?_, ?_, fun p => ?_⟩
  · rw [opened, hconsts'', hconsts']
    exact get?_defineAll _ x rfl
  · rw [opened, hvars'']
    exact vars_zeroAll _ List.nodup_nil hvars
  · refine (get?_declareBlocks hnd _ p).trans ?_
    rw [hprocs', hprocs]
    show Option.or ((procs.lookup p).map _) none = (procs.lookup p).map _
    rw [Option.or_none]

/-- **A program that is evaluated runs its statement**, from variables that are zero, and answers
the frame with their last values -/
theorem run_program {T : Target} {fs : Frames} {p : Program} {n m N : Nat} {es : List Event}
    {F : Frame} {v : Value} {ev : Evaluator} (hS : Covers T fs p.block.scope)
    (hnd : (p.block.procs.map Prod.fst).Nodup) (hcode : StatementCode T fs n p.block.body m es)
    (h : Evaluator.run N p.toValue {} = (.ok (F, v), ev)) :
    ∃ σ, Runs p.block.scope p.block.body (fun _ => 0) σ ev.out ∧ F.Shows p.block.scope σ := by
  obtain ⟨M, -, hvisit⟩ := evaluate_ok h
  obtain ⟨M, -, hvisit⟩ := visit_tuple_ok "program" ruleNames.program hvisit
  rw [apply_program] at hvisit
  obtain ⟨rs, s₁, h₁, hgather⟩ := exec_bind_ok.1 hvisit
  cases hgather
  have hnode : p.block.toValue.isNode = true := by
    cases p.block
    rfl
  obtain ⟨M', r, rs', s₂, -, hblock, hrest⟩ := visitEach_node hnode h₁
  obtain ⟨K, v', -, hbody⟩ := visit_block hblock
  obtain ⟨σ, F', o, hruns, hF', rfl⟩ := visit_runs hS K hcode (opened_shows hnd) (k := 0) hbody
  cases M' with
  | zero => cases hrest
  | succ M' =>
    have hsame : (⟨nested 0 F', "" ++ o⟩ : Evaluator) = ⟨F :: ev.frames, ev.out⟩ :=
      congrArg Prod.snd hrest
    obtain ⟨hframes, hout⟩ := Evaluator.mk.inj hsame
    obtain ⟨rfl, -⟩ := List.cons.inj hframes
    rw [String.empty_append] at hout
    exact ⟨σ, hout ▸ hruns, hF'⟩

end Programs

end Evaluator

end Pl0Kit
