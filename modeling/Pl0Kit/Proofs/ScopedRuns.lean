import Pl0Kit.Parse
import Pl0Kit.Proofs.DeclaredNames

/-!
# Runs of programs whose names are declared

A run can fail in two ways only, if its budget is large enough (`declared_run_faults`): at a
comparison for equality or inequality, whose words the evaluator does not know, or at a name that is
a procedure in one place of the program and a constant or a variable in another.

`EndsWell` says of one run that it fails for these reasons only, and else leaves frames that fit,
and `Guarded` says it of all runs from frames that have the names in use.  There is a lemma for each
kind of node, and `visits_guarded` puts them together by induction on the budget.
-/

namespace Pl0Kit

namespace Evaluator

open Act Generator

/-! ## guarded runs -/

variable {p : Program} {fs gs : Frames} {us ws : List Use} {α β : Type} {V : α → Prop}
  {W : β → Prop} {N : Nat} {v : Value} {s : Evaluator}

/-- any answer -/
def Any {α : Type} (_ : α) : Prop := True

/-- a run that has answered, with frames that are the same or have more names, or failed as it
may -/
inductive EndsWell (p : Program) (fs : Frames) (V : α → Prop) : Except Fault α × Evaluator → Prop
  | answer {a : α} {s : Evaluator} : V a → p.Fits s.frames → fs.Grow s.frames →
      EndsWell p fs V (.ok a, s)
  | fault {e : Fault} {s : Evaluator} : p.Faults e → EndsWell p fs V (.error e, s)

namespace EndsWell

variable {m : Eval α} {k : α → Eval β} {vs : List Value}

theorem after {r : Except Fault α × Evaluator} (h : EndsWell p gs V r) (hgrow : fs.Grow gs) :
    EndsWell p fs V r := by
  cases h with
  | answer ha hfits hgrow' => exact .answer ha hfits (hgrow.trans hgrow')
  | fault he => exact .fault he

theorem bind (h : EndsWell p fs V (exec m s))
    (hk : ∀ a s', V a → p.Fits s'.frames → fs.Grow s'.frames → EndsWell p fs W (exec (k a) s')) :
    EndsWell p fs W (exec (m >>= k) s) := by
  rw [exec_bind]
  generalize exec m s = r at h ⊢
  cases h with
  | answer ha hfits hgrow => exact hk _ _ ha hfits hgrow
  | fault he => exact .fault he

/-- a node is visited with one more frame -/
theorem evaluate {V : Value → Prop}
    (h : ∀ M < N, EndsWell p ({} :: s.frames) V (exec (visit M v) ⟨{} :: s.frames, s.out⟩)) :
    EndsWell p s.frames (fun r => V r.2) (exec (evaluate N v) s) := by
  cases N with
  | zero => exact .fault .budget
  | succ M =>
    have hvisit := h M (Nat.lt_succ_self M)
    have hopen : exec openFrame s = (.ok (), ⟨{} :: s.frames, s.out⟩) := rfl
    rw [Evaluator.evaluate, exec_then hopen, exec_bind]
    generalize exec (visit M v) ⟨{} :: s.frames, s.out⟩ = r at hvisit ⊢
    cases hvisit with
    | fault he => exact .fault he
    | @answer a s' ha hfits hgrow =>
      obtain ⟨frames, out⟩ := s'
      cases hgrow with
      | cons _ hgrow => exact .answer ha hfits.2 hgrow

theorem list {V : Value → Prop} {tag : String} {xs : List Value} (low : String)
    (hlow : tag.toLower = low)
    (h : ∀ M < N, EndsWell p fs V (exec (apply (M + 1) low (.str tag :: xs)) s)) :
    EndsWell p fs V (exec (visit N (.list (.str tag :: xs))) s) := by
  subst hlow
  match N, h with
  | 0, _ | 1, _ => exact .fault .budget
  | M + 2, h => exact h M (by omega)

theorem tuple {V : Value → Prop} {tag : String} {xs : List Value} (low : String)
    (hlow : tag.toLower = low)
    (h : ∀ M < N, EndsWell p fs V (exec (apply (M + 1) low (.str tag :: xs)) s)) :
    EndsWell p fs V (exec (visit N (.tuple (.str tag :: xs))) s) := by
  subst hlow
  match N, h with
  | 0, _ | 1, _ => exact .fault .budget
  | M + 2, h => exact h M (by omega)

theorem node (hv : v.isNode = true) (h : ∀ M < N, EndsWell p fs Any (exec (visit M v) s))
    (hrest : ∀ M < N, ∀ s', p.Fits s'.frames → fs.Grow s'.frames →
      EndsWell p fs Any (exec (visitEach M vs) s')) :
    EndsWell p fs Any (exec (visitEach N (v :: vs)) s) := by
  cases N with
  | zero => exact .fault .budget
  | succ M =>
    rw [visitEach, if_pos hv]
    refine bind (h M (Nat.lt_succ_self M)) fun _ s' _ hfits hgrow => ?_
    refine bind (hrest M (Nat.lt_succ_self M) s' hfits hgrow) fun _ s'' _ hfits hgrow => ?_
    exact .answer trivial hfits hgrow

theorem skip (hv : v.isNode = false) (h : ∀ M < N, EndsWell p fs Any (exec (visitEach M vs) s)) :
    EndsWell p fs Any (exec (visitEach N (v :: vs)) s) := by
  cases N with
  | zero => exact .fault .budget
  | succ M =>
    rw [visitEach, hv, if_neg Bool.false_ne_true]
    exact h M (Nat.lt_succ_self M)

theorem nil (hfits : p.Fits s.frames) (hgrow : fs.Grow s.frames) :
    EndsWell p fs Any (exec (visitEach N []) s) := by
  cases N with
  | zero => exact .fault .budget
  | succ N => exact .answer trivial hfits hgrow

/-- declarations do not fail -/
theorem declare {tag : String} {xs : List Value} {d : Eval Unit} {s' : Evaluator} (low : String)
    (hlow : tag.toLower = low)
    (hrule : ∀ n, apply (n + 1) low (.str tag :: xs) = (do d; pure .none))
    (hd : exec d s = (.ok (), s')) (h : ∀ M < N, EndsWell p fs Any (exec (visitEach M vs) s')) :
    EndsWell p fs Any (exec (visitEach N (.list (.str tag :: xs) :: vs)) s) := by
  subst hlow
  match N, h with
  | 0, _ | 1, _ | 2, _ => exact .fault .budget
  | M + 3, h =>
    have hvisit : exec (visit (M + 2) (.list (.str tag :: xs))) s = (.ok .none, s') := by
      show exec (apply (M + 1) tag.toLower (.str tag :: xs)) s = _
      rw [hrule, exec_then hd]
      rfl
    have hnode : (Value.list (.str tag :: xs)).isNode = true := rfl
    rw [visitEach, if_pos hnode, exec_then hvisit]
    exact bind (h (M + 2) (by omega)) fun _ _ _ hfits hgrow => .answer trivial hfits hgrow

end EndsWell

/-- from frames that fit the program and provide what is used, `m` ends well -/
def Guarded (p : Program) (us : List Use) (V : α → Prop) (m : Eval α) : Prop :=
  ∀ ⦃s : Evaluator⦄, p.Fits s.frames → (∀ u ∈ us, s.frames.Provides u) →
    EndsWell p s.frames V (exec m s)

namespace Guarded

variable {m : Eval α} {k : α → Eval β} {vs : List Value}

theorem pure {a : α} (ha : V a) : Guarded p us V (pure a) :=
  fun s hfits _ => .answer ha hfits (Frames.Grow.refl s.frames)

theorem throw {e : Fault} (he : p.Faults e) : Guarded p us V (throw e) := fun _ _ _ => .fault he

theorem bind (hm : Guarded p us V m) (hk : ∀ a, V a → Guarded p us W (k a)) :
    Guarded p us W (m >>= k) := fun _ hfits hus =>
  (hm hfits hus).bind fun a _ ha hfits' hgrow =>
    (hk a ha hfits' fun u hu => (hus u hu).mono hgrow.within).after hgrow

theorem mono (h : Guarded p us V m) (hsub : us ⊆ ws) : Guarded p ws V m :=
  fun _ hfits hws => h hfits fun u hu => hws u (hsub hu)

theorem lift {r : Except Fault α} (h : ∀ e, r = .error e → p.Faults e) :
    Guarded p us Any (lift r) := by
  cases r with
  | ok a => exact .pure trivial
  | error e => exact .throw (h e rfl)

theorem evaluate {V : Value → Prop} (h : ∀ M < N, Guarded p us V (visit M v)) :
    Guarded p us (fun r => V r.2) (evaluate N v) := fun s hfits hus =>
  .evaluate fun M hM => h M hM (s := ⟨{} :: s.frames, s.out⟩) hfits.push fun u hu =>
    (hus u hu).mono (Frames.within_cons {} s.frames)

theorem list {V : Value → Prop} {tag : String} {xs : List Value} (low : String)
    (hlow : tag.toLower = low) (h : ∀ M < N, Guarded p us V (apply (M + 1) low (.str tag :: xs))) :
    Guarded p us V (visit N (.list (.str tag :: xs))) :=
  fun _ hfits hus => .list low hlow fun M hM => h M hM hfits hus

theorem tuple {V : Value → Prop} {tag : String} {xs : List Value} (low : String)
    (hlow : tag.toLower = low) (h : ∀ M < N, Guarded p us V (apply (M + 1) low (.str tag :: xs))) :
    Guarded p us V (visit N (.tuple (.str tag :: xs))) :=
  fun _ hfits hus => .tuple low hlow fun M hM => h M hM hfits hus

theorem node (hv : v.isNode = true) (h : ∀ M < N, Guarded p us Any (visit M v))
    (hrest : ∀ M < N, Guarded p us Any (visitEach M vs)) :
    Guarded p us Any (visitEach N (v :: vs)) :=
  fun _ hfits hus => .node hv (fun M hM => h M hM hfits hus) fun M hM _ hfits' hgrow =>
    (hrest M hM hfits' fun u hu => (hus u hu).mono hgrow.within).after hgrow

end Guarded

/-! ## conditions -/

theorem expr_guarded {e : Expr} (hp : readsOf e.symbols ⊆ p.uses) :
    Guarded p (readsOf e.symbols) (fun r => p.Holds r.2) (evaluate N e.toValue) := by
  intro s hfits hus
  have hvalues : p.Values s.frames.value e.symbols := fun x hx =>
    hfits.value (hus _ (read_mem_readsOf hx)) (hp (read_mem_readsOf hx))
  have hresult := Program.computes_expr e hvalues
  rcases (gives_expr e s.frames).only N rfl with hstops | hfuel
  · generalize e.result s.frames.value = r at hstops hresult
    cases r with
    | ok a =>
      cases hstops with
      | answer h =>
        rw [h]
        exact .answer hresult hfits (Frames.Grow.refl s.frames)
    | error d =>
      cases hstops with
      | fault h =>
        rw [h]
        exact .fault hresult
  · generalize exec (evaluate N e.toValue) s = r at hfuel ⊢
    obtain ⟨_, s'⟩ := r
    cases hfuel
    exact .fault .budget

theorem compareBy_guarded {op : RelOp} (hop : .compare op ∈ p.uses) {a b : Value} (ha : p.Holds a)
    (hb : p.Holds b) : Guarded p us Any (compareBy (.str op.word) a b) := by
  have horder : ∀ e, a.order b = .error e → p.Faults e := by
    intro e he
    cases ha with
    | int m =>
      cases hb with
      | int n => cases he
      | procedure _ _ hx =>
        cases he
        exact .type hx
    | procedure _ _ hx =>
      cases hb with
      | int | procedure =>
        cases he
        exact .type hx
  have hgood : ∀ k : Ordering → Bool,
      Guarded p us Any (Evaluator.lift (a.order b) >>= fun o => Pure.pure (Value.bool (k o))) :=
    fun k => .bind (.lift horder) fun _ _ => .pure trivial
  cases op with
  | lt => exact hgood (· == .lt)
  | lte => exact hgood (· != .gt)
  | gt => exact hgood (· == .gt)
  | gte => exact hgood (· != .lt)
  | e => exact .throw (.comparison (.inl rfl) hop)
  | ne => exact .throw (.comparison (.inr rfl) hop)

theorem condition_guarded {c : Condition} (hp : c.uses ⊆ p.uses) :
    Guarded p c.uses Any (evaluate N c.toValue) := by
  cases c with
  | odd e =>
    refine .evaluate (V := Any) fun M _ => .tuple "odd" ruleNames.odd fun K _ => ?_
    rw [apply_odd]
    refine .bind (expr_guarded hp) fun r hr => ?_
    refine .bind (.lift fun d hd => ?_) fun _ _ => .pure trivial
    generalize r.2 = a at hr hd
    cases hr with
    | int n => cases hd
    | procedure _ _ hx =>
      cases hd
      exact .type hx
  | compare l op r =>
    obtain ⟨hop, hparts⟩ := List.cons_subset.1 hp
    obtain ⟨hl, hr⟩ := List.append_subset.1 hparts
    refine .evaluate (V := Any) fun M _ => .tuple "condition" ruleNames.condition fun K _ => ?_
    rw [apply_condition]
    have hleft := (expr_guarded (N := K) hl).mono
      (List.subset_cons_of_subset (.compare op) (List.subset_append_left _ (readsOf r.symbols)))
    have hright := (expr_guarded (N := K) hr).mono
      (List.subset_cons_of_subset (.compare op) (List.subset_append_right (readsOf l.symbols) _))
    exact .bind hleft fun a ha => .bind hright fun b hb => compareBy_guarded hop ha hb

/-! ## blocks -/

section Declarations

variable {G : Frame} {out : String} {vs : List Value}

theorem consts_end (consts : Option (List (String × Nat)))
    (h : ∀ M < N, EndsWell p fs Any
      (exec (visitEach M vs) ⟨defineAll G (consts.getD []) :: gs, out⟩)) :
    EndsWell p fs Any (exec (visitEach N (constsValue consts :: vs)) ⟨G :: gs, out⟩) := by
  cases consts with
  | none => exact .skip rfl h
  | some ds =>
    exact .declare "constants" ruleNames.consts (fun _ => rfl) (exec_declareConstants ds G) h

theorem vars_end (vars : Option (List String))
    (h : ∀ M < N, EndsWell p fs Any (exec (visitEach M vs) ⟨zeroAll G (vars.getD []) :: gs, out⟩)) :
    EndsWell p fs Any (exec (visitEach N (varsValue vars :: vs)) ⟨G :: gs, out⟩) := by
  cases vars with
  | none => exact .skip rfl h
  | some xs =>
    exact .declare "variables" ruleNames.vars (fun _ => rfl) (exec_declareVariables xs G) h

theorem procs_end (procs : List (String × Block))
    (h : ∀ M < N, EndsWell p fs Any (exec (visitEach M vs) ⟨declareBlocks G procs :: gs, out⟩)) :
    EndsWell p fs Any
      (exec (visitEach N (procsValue (Block.procValues procs) :: vs)) ⟨G :: gs, out⟩) := by
  cases procs with
  | nil => exact .skip rfl h
  | cons q procs =>
    exact .declare "procedures" ruleNames.procs (fun _ => rfl)
      (exec_declareProcedures (q :: procs) G) h

end Declarations

/-- with the budget `N`, statements whose names are in the frames are visited well -/
def VisitsGuarded (p : Program) (N : Nat) : Prop :=
  ∀ ⦃t : Statement⦄, t.uses ⊆ p.uses → Guarded p t.uses Any (visit N t.toValue)

/-- the statement of a block finds what is declared in the block and around it -/
theorem block_ends {b : Block} {outer : List Block} (ih : ∀ M < N, VisitsGuarded p M)
    (hfits : p.Fits fs) (hserve : fs.Serve outer) (hb : b.blocks ⊆ p.block.blocks)
    (hscoped : b.Declared outer) (out : String) :
    EndsWell p ({} :: fs) Any (exec (visit N b.toValue) ⟨{} :: fs, out⟩) := by
  have hopened := fits_opened hfits hserve hb hscoped
  have huses : b.body.uses ⊆ p.uses := fun u hu => List.mem_flatMap.2 ⟨b, hb b.mem_blocks, hu⟩
  have hprovides : ∀ u ∈ b.body.uses, Frames.Provides (opened {} b :: fs) u := by
    intro u hu
    obtain ⟨hbody, -⟩ := hscoped
    obtain ⟨c, hc, hcu⟩ := hbody u hu
    exact serve_opened hserve c hc u hcu
  obtain ⟨consts, vars, procs, body⟩ := b
  refine .tuple "block" ruleNames.block fun K hK => ?_
  rw [apply_block]
  refine .bind (V := Any) ?_ fun _ _ _ hfits hgrow => .answer trivial hfits hgrow
  refine consts_end consts fun M₁ h₁ => vars_end vars fun M₂ h₂ => procs_end procs fun M₃ h₃ => ?_
  refine .node (isNode_statement body) (fun M hM => ?_) fun _ _ _ => .nil
  exact (ih M (by omega) huses hopened hprovides).after
    (.cons (Frame.grows_empty _) (Frames.Grow.refl fs))

/-! ## statements -/

section Statements

variable {t : Statement}

theorem evaluate_guarded (ih : ∀ M < N, VisitsGuarded p M) (h : t.uses ⊆ p.uses) :
    Guarded p t.uses Any (evaluate N t.toValue) := .evaluate (V := Any) fun M hM => ih M hM h

theorem assign_guarded {x : String} {e : Expr} (h : (Statement.assign x e).uses ⊆ p.uses) :
    Guarded p (Statement.assign x e).uses Any
      (apply (N + 1) "set" [.str "SET", nameValue x, e.toValue]) := by
  rw [apply_set]
  have he :=
    (expr_guarded (N := N) (List.cons_subset.1 h).2).mono (List.subset_cons_self (.assign x) _)
  refine he.bind fun r hr s hfits hus => ?_
  have hx : s.frames.Knows .var x := hus (.assign x) List.mem_cons_self
  obtain ⟨⟨kind, v, n⟩, hfind⟩ := Frames.find?_of_knows hx
  rw [exec_then (exec_find hfind)]
  -- the frame that is changed may have another thing of that name
  exact .answer trivial (hfits.update (hfits.declares_of_knows hx) hr (n - 1))
    (Frames.grow_update s.frames (n - 1) x r.2)

theorem print_guarded {e : Expr} (h : (Statement.print e).uses ⊆ p.uses) :
    Guarded p (Statement.print e).uses Any (apply (N + 1) "print" [.str "PRINT", e.toValue]) := by
  rw [apply_print]
  refine (expr_guarded h).bind fun r hr s hfits hus => ?_
  exact .answer trivial hfits (Frames.Grow.refl s.frames)

/-- what is called is a procedure of the program, or a name that has been used for two things -/
theorem call_guarded (ih : ∀ M < N, VisitsGuarded p M) {q : String}
    (h : (Statement.call q).uses ⊆ p.uses) :
    Guarded p (Statement.call q).uses Any (apply (N + 1) "call" [.str "CALL", .str q]) := by
  show Guarded p [.call q] Any (find (.str q) >>= _)
  intro s hfits hus
  obtain ⟨⟨kind, v, n⟩, hfind⟩ := Frames.find?_of_knows (hus (.call q) List.mem_cons_self)
  have hentry := hfits.find? hfind
  rw [exec_then (exec_find hfind)]
  cases kind with
  | const | var => exact .fault (.kind (.inl ⟨h List.mem_cons_self, hentry.1⟩))
  | proc =>
    obtain ⟨-, q', b, outer, rfl, hb, hscoped, hserve⟩ := hentry
    have hblock : EndsWell p s.frames (fun r => Any r.2) (exec (evaluate N b.toValue) s) :=
      .evaluate (V := Any) fun M hM =>
        block_ends (fun K hK => ih K (by omega)) hfits hserve hb hscoped s.out
    exact hblock.bind fun _ _ _ hfits hgrow => .answer trivial hfits hgrow

theorem if_guarded (ih : ∀ M < N, VisitsGuarded p M) {c : Condition}
    (h : (Statement.ifThen c t).uses ⊆ p.uses) :
    Guarded p (Statement.ifThen c t).uses Any
      (apply (N + 1) "if" [.str "IF", c.toValue, t.toValue]) := by
  obtain ⟨hc, ht⟩ := List.append_subset.1 h
  rw [apply_if]
  refine ((condition_guarded hc).mono (List.subset_append_left _ _)).bind fun r _ => ?_
  split
  · exact ((evaluate_guarded ih ht).mono (List.subset_append_right _ _)).bind fun _ _ =>
      .pure trivial
  · exact .pure trivial

/-- one turn of a loop after the other -/
theorem loop_guarded (ih : ∀ M < N, VisitsGuarded p M) {c : Condition} (hc : c.uses ⊆ p.uses)
    (ht : t.uses ⊆ p.uses) : Guarded p (c.uses ++ t.uses) Any (loop N c.toValue t.toValue) := by
  induction N with
  | zero => exact .throw .budget
  | succ N ihN =>
    have ih' : ∀ M < N, VisitsGuarded p M := fun M hM => ih M (by omega)
    rw [loop_succ]
    refine ((condition_guarded hc).mono (List.subset_append_left _ _)).bind fun r _ => ?_
    split
    · exact ((evaluate_guarded ih' ht).mono (List.subset_append_right _ _)).bind fun _ _ => ihN ih'
    · exact .pure trivial

theorem body_guarded (ih : ∀ M < N, VisitsGuarded p M) {ts : List Statement}
    (h : Statement.uses.allUses ts ⊆ p.uses) :
    Guarded p (Statement.uses.allUses ts) Any (visitEach N (Statement.toValue.bodyValues ts)) := by
  induction ts generalizing N with
  | nil => exact fun s hfits _ => .nil hfits (Frames.Grow.refl s.frames)
  | cons t ts iht =>
    obtain ⟨ht, hts⟩ := List.append_subset.1 h
    refine .node (isNode_statement t) (fun M hM => ?_) fun M hM => ?_
    · exact (ih M hM ht).mono (List.subset_append_left _ _)
    · exact (iht (fun K hK => ih K (by omega)) hts).mono (List.subset_append_right _ _)

/-- **Statements whose names are in the frames are visited well**, whatever the budget. -/
theorem visits_guarded (p : Program) (N : Nat) : VisitsGuarded p N := by
  induction N using Nat.strongRecOn with
  | ind N ih =>
    intro t h
    have ih' : ∀ {K}, K < N → ∀ M < K, VisitsGuarded p M := fun hK M hM => ih M (by omega)
    cases t with
    | assign x e => exact .tuple "set" ruleNames.assign fun K _ => assign_guarded h
    | call q => exact .tuple "call" ruleNames.call fun K hK => call_guarded (ih' hK) h
    | block ts =>
      refine .list "begin" ruleNames.sequence fun K hK => ?_
      rw [apply_begin]
      exact (body_guarded (ih' hK) h).bind fun _ _ => .pure trivial
    | ifThen c t => exact .tuple "if" ruleNames.ifThen fun K hK => if_guarded (ih' hK) h
    | whileDo c t =>
      obtain ⟨hc, ht⟩ := List.append_subset.1 h
      refine .tuple "while" ruleNames.whileDo fun K hK => ?_
      rw [apply_while]
      exact (loop_guarded (ih' hK) hc ht).bind fun _ _ => .pure trivial
    | print e => exact .tuple "print" ruleNames.print fun K _ => print_guarded h

end Statements

/-- **Faults of programs whose names are declared.**  A run that fails, and not for want of fuel,
has met a comparison for equality or inequality, or a name that the program uses for two things.  No
name is unknown, and nothing is divided by zero. -/
theorem declared_run_faults {p : Program} (h : p.Declared) {N : Nat} {e : Fault} {s : Evaluator}
    (hrun : run N p.toValue {} = (.error e, s)) : p.Faults e := by
  have hnode : p.block.toValue.isNode = true := by
    cases p.block
    rfl
  have hvisit : ∀ M < N, EndsWell p [{}] Any (exec (visit M p.toValue) ⟨[{}], ""⟩) := by
    refine fun M _ => .tuple "program" ruleNames.program fun K _ => ?_
    rw [apply_program]
    refine .bind (V := Any) ?_ fun _ _ _ hfits hgrow => .answer trivial hfits hgrow
    refine .node hnode (fun L _ => ?_) fun _ _ _ => .nil
    have hfits : p.Fits [] := trivial
    have hserve : Frames.Serve [] [] := fun _ hb => nomatch hb
    exact block_ends (fun J _ => visits_guarded p J) hfits hserve (List.Subset.refl _) h ""
  have hends := EndsWell.evaluate (s := {}) hvisit
  have hexec : exec (evaluate N p.toValue) {} = (.error e, s) := hrun
  rw [hexec] at hends
  cases hends with
  | fault he => exact he

end Evaluator

open Evaluator

/-- `PROCEDURE p; VAR y; PROCEDURE q; x := x + 1; BEGIN CALL q; IF x < 1 THEN CALL p END` -/
def countByCalls : Program :=
  ⟨.mk none (some ["x"])
    [("p", .mk none (some ["y"])
      [("q", .mk none none []
        (.assign "x" (.mk none (.mk (.name "x") []) [(.plus, .mk (.number 1) [])])))]
      (.block [.call "q",
        .ifThen (.compare (.mk none (.mk (.name "x") []) []) .lt (.mk none (.mk (.number 1) []) []))
          (.call "p")]))]
    (.call "p")⟩

theorem countByCalls_declared : countByCalls.Declared :=
  .mk (by decide) (List.forall_mem_singleton.2 (.mk (by decide) (List.forall_mem_singleton.2
    (.mk (by decide) (List.forall_mem_nil _)))))

theorem countByCalls_uses : countByCalls.uses =
    [.call "p", .call "q", .compare .lt, .read "x", .call "p", .assign "x", .read "x"] := by
  decide

theorem countByCalls_unmixed (x : String) : ¬ countByCalls.Mixes x := by
  simp only [Program.Mixes, countByCalls_uses, List.mem_cons, Use.call.injEq, Use.read.injEq,
    List.not_mem_nil, reduceCtorEq, or_false, false_or, or_self]
  rintro (⟨rfl | rfl | rfl, hx⟩ | ⟨rfl, hx⟩)
  all_goals exact absurd hx (by decide)

set_option maxRecDepth 4000 in
theorem countByCalls_answers :
    ((run 43 countByCalls.toValue {}).1.toOption.map fun r => r.1.vars) =
      some [(.str "x", .int 1)] := by
  with_unfolding_all rfl

/-- a run of a program with procedures in procedures and recursion only fails if its budget is too
small -/
theorem countByCalls_runs : countByCalls.Declared ∧
    (∀ N e s, run N countByCalls.toValue {} = (.error e, s) → e = .outOfFuel) ∧
    ((run 43 countByCalls.toValue {}).1.toOption.map fun r => r.1.vars) =
      some [(.str "x", .int 1)] := by
  refine ⟨countByCalls_declared, fun N e s hrun => ?_, countByCalls_answers⟩
  cases declared_run_faults countByCalls_declared hrun with
  | budget => rfl
  | @comparison op hop hmem =>
    rw [countByCalls_uses] at hmem
    rcases hop with rfl | rfl <;> exact absurd hmem (by decide)
  | kind hx => exact absurd hx (countByCalls_unmixed _)
  | type hx => exact absurd hx (countByCalls_unmixed _)

/-- `IF 1 == 1 THEN ! 1` -/
def printIfEqual : Program :=
  ⟨.mk none none [] (.ifThen
    (.compare (.mk none (.mk (.number 1) []) []) .e (.mk none (.mk (.number 1) []) []))
    (.print (.mk none (.mk (.number 1) []) [])))⟩

/-- `PROCEDURE q; ! 1; PROCEDURE p; CALL q; PROCEDURE r; VAR q; CALL p; CALL r` -/
def callCaptured : Program :=
  ⟨.mk none none
    [("q", .mk none none [] (.print (.mk none (.mk (.number 1) []) []))),
      ("p", .mk none none [] (.call "q")), ("r", .mk none (some ["q"]) [] (.call "p"))] (.call "r")⟩

/-- **Two programs fail in which all names are declared**: one compares for equality, and in the
other the variable of a caller stands in the way of a procedure. -/
theorem declared_programs_fail :
    (parseText "if 1 == 1 then ! 1 .").1 = .ok printIfEqual ∧ printIfEqual.Declared ∧
      (run 40 printIfEqual.toValue {}).1 =
        .error (.unknownOperator "Unknown comparison operator E") ∧
      (parseText "procedure q; ! 1; procedure p; call q; procedure r; var q; call p; call r.").1 =
        .ok callCaptured ∧ callCaptured.Declared ∧
      (run 40 callCaptured.toValue {}).1 =
        .error (.wrongKind "Expecting procedure but got: VARIABLE") := by
  have hequal : printIfEqual.Declared := .mk (by decide) (List.forall_mem_nil _)
  have hcaptured : callCaptured.Declared := by
    refine .mk (by decide) (List.forall_mem_cons.2 ⟨?_, List.forall_mem_cons.2 ⟨?_,
      List.forall_mem_singleton.2 ?_⟩⟩)
    all_goals exact .mk (by decide) (List.forall_mem_nil _)
  refine ⟨?_, hequal, ?_, ?_, hcaptured, ?_⟩ <;> with_unfolding_all rfl

end Pl0Kit
