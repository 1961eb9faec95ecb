import Pl0Kit.Eval
import Pl0Kit.Proofs.Outcome
import Pl0Kit.Proofs.Semantics

/-!
# Results of expressions

What the evaluator makes of an expression, as a function of what its names stand for and of nothing
else (`Expr.result`): a value, or the first fault that is met.  Values may be of any kind here.

The evaluator needs fuel.  `ComesTo gs p r` says that `p` comes to `r` in the frames `gs` if it has
enough of it, and that with less fuel it may only run out.  `gives_expr`, `gives_term` and
`gives_factor` show this for expressions and their parts, one lemma for each kind of node.
-/

namespace Pl0Kit

/-! ## results -/

def AddOp.result : AddOp → Value → Value → Except Fault Value
  | .plus, a, b => a.add b
  | .minus, a, b => a.sub b

/-- a division leaves the product before it as it is -/
def MulOp.result : MulOp → Value → Value → Except Fault Value
  | .times, a, b => a.mul b
  | .divide, a, _ => .ok a

/-- a leading sign, which acts on a whole sum -/
def signResult : Option AddOp → Value → Except Fault Value
  | some .minus, a => a.mul (.int (-1))
  | _, a => .ok a

mutual

/-- the result of an expression where names stand for `ρ` -/
def Expr.result (ρ : String → Except Fault Value) : Expr → Except Fault Value
  | .mk sign first rest => do
    let total ← first.result ρ
    let total ← Expr.resultFrom ρ total rest
    signResult sign total

def Expr.resultFrom (ρ : String → Except Fault Value) (total : Value) :
    List (AddOp × Term) → Except Fault Value
  | [] => .ok total
  | (op, x) :: rest => do
    let v ← x.result ρ
    let total ← op.result total v
    Expr.resultFrom ρ total rest

def Term.result (ρ : String → Except Fault Value) : Term → Except Fault Value
  | .mk first rest => do
    let total ← first.result ρ
    Term.resultFrom ρ total rest

def Term.resultFrom (ρ : String → Except Fault Value) (total : Value) :
    List (MulOp × Factor) → Except Fault Value
  | [] => .ok total
  | (op, x) :: rest => do
    let v ← x.result ρ
    let total ← op.result total v
    Term.resultFrom ρ total rest

def Factor.result (ρ : String → Except Fault Value) : Factor → Except Fault Value
  | .name x => ρ x
  | .number n => .ok (.int n)
  | .paren e => e.result ρ

end

theorem AddOp.result_int (op : AddOp) (a b : Int) :
    op.result (.int a) (.int b) = .ok (.int (op.apply a b)) := by
  cases op <;> rfl

theorem MulOp.result_int (op : MulOp) (a b : Int) :
    op.result (.int a) (.int b) = .ok (.int (op.apply a b)) := by
  cases op <;> rfl

/-- what a name stands for in some frames -/
def Frames.seen (gs : Frames) (k : Value) : Except Fault Value := (gs.find k).map fun r => r.2.1

def Frames.value (gs : Frames) (x : String) : Except Fault Value := gs.seen (.str x)

theorem Frames.find_str (gs : Frames) (x : String) :
    gs.find (.str x) = match gs.find? (.str x) with
      | some r => .ok r
      | none => .error (.undefinedName (.str x)) :=
  if_neg (by simp [Value.isKey])

theorem Frames.find?_push (k : Value) (gs : Frames) :
    Frames.find? k ({} :: gs) = (gs.find? k).map fun (kind, v, n) => (kind, v, n + 1) := rfl

/-- a new frame hides no name -/
theorem Frames.value_push (gs : Frames) : Frames.value ({} :: gs) = Frames.value gs := by
  funext x
  rw [Frames.value, Frames.value, Frames.seen, Frames.seen, Frames.find_str, Frames.find_str,
    Frames.find?_push]
  cases gs.find? (.str x) <;> rfl

namespace Evaluator

open Act

/-! ## fuel -/

section

variable {α β : Type} {gs : Frames} {s : Evaluator} {p q : Nat → Eval α} {f : Nat → α → Eval β}
  {r : Except Fault α} {g : α → Except Fault β}

/-- a run that comes to `r`; if that is an answer, then the state is the same as before -/
inductive Stops (p : Eval α) (s : Evaluator) : Except Fault α → Prop
  | answer {a : α} : exec p s = (.ok a, s) → Stops p s (.ok a)
  | fault {e : Fault} {s' : Evaluator} : exec p s = (.error e, s') → Stops p s (.error e)

/-- `p` comes to `r` in the frames `gs`, unless it runs out of fuel -/
structure ComesTo (gs : Frames) (p : Nat → Eval α) (r : Except Fault α) : Prop where
  enough : ∃ K, ∀ N, K ≤ N → ∀ ⦃s : Evaluator⦄, s.frames = gs → Stops (p N) s r
  only : ∀ N ⦃s : Evaluator⦄, s.frames = gs → Stops (p N) s r ∨ (exec (p N) s).1 = .error .outOfFuel

/-- a fault of the first part is one of the whole -/
theorem exec_bind_fault {p : Eval α} {f : α → Eval β} {e : Fault} (h : (exec p s).1 = .error e) :
    (exec (p >>= f) s).1 = .error e := by
  rw [exec_bind]
  generalize exec p s = o at h
  obtain ⟨_, s'⟩ := o
  cases h
  rfl

theorem Stops.bind {p : Eval α} {f : α → Eval β} (hp : Stops p s r)
    (hf : ∀ a, r = .ok a → Stops (f a) s (g a)) : Stops (p >>= f) s (r >>= g) := by
  cases hp with
  | @answer a h =>
    show Stops (p >>= f) s (g a)
    cases hg : g a with
    | ok b =>
      have ha := hf a rfl
      rw [hg] at ha
      cases ha with
      | answer ha => exact .answer (by rw [exec_then h, ha])
    | error e =>
      have ha := hf a rfl
      rw [hg] at ha
      cases ha with
      | fault ha => exact .fault (by rw [exec_then h, ha])
  | fault h => exact .fault (by rw [exec_bind, h])

namespace ComesTo

theorem pure (a : α) : ComesTo gs (fun _ => pure a) (.ok a) :=
  ⟨⟨0, fun _ _ _ _ => .answer rfl⟩, fun _ _ _ => .inl (.answer rfl)⟩

theorem lift (r : Except Fault α) : ComesTo gs (fun _ => lift r) r := by
  have h : ∀ s, Stops (Evaluator.lift r) s r := by
    intro s
    cases r with
    | ok a => exact .answer rfl
    | error e => exact .fault rfl
  exact ⟨⟨0, fun _ _ s _ => h s⟩, fun _ s _ => .inl (h s)⟩

/-- a rule that takes one unit of fuel -/
theorem succ (h : ComesTo gs p r) (hzero : q 0 = throw .outOfFuel) (hsucc : ∀ N, q (N + 1) = p N) :
    ComesTo gs q r := by
  obtain ⟨⟨K, hK⟩, honly⟩ := h
  refine ⟨⟨K + 1, fun N hN s hs => ?_⟩, fun N s hs => ?_⟩
  · obtain ⟨N, rfl⟩ := Nat.exists_eq_add_of_le' (Nat.le_trans (Nat.le_add_left 1 K) hN)
    rw [hsucc]
    exact hK N (by omega) hs
  · cases N with
    | zero => exact .inr (by rw [hzero]; rfl)
    | succ N =>
      rw [hsucc]
      exact honly N hs

theorem bind (hp : ComesTo gs p r) (hf : ∀ a, r = .ok a → ComesTo gs (fun N => f N a) (g a)) :
    ComesTo gs (fun N => p N >>= f N) (r >>= g) := by
  constructor
  · obtain ⟨K, hK⟩ := hp.enough
    -- the fuel of the second part is that for the answer of the first one
    obtain ⟨L, hL⟩ : ∃ L, ∀ N, L ≤ N → ∀ ⦃s : Evaluator⦄, s.frames = gs → ∀ a, r = .ok a →
        Stops (f N a) s (g a) := by
      cases r with
      | error e => exact ⟨0, nofun⟩
      | ok a =>
        obtain ⟨L, hL⟩ := (hf a rfl).enough
        refine ⟨L, fun N hN s hs b hb => ?_⟩
        cases hb
        exact hL N hN hs
    exact ⟨K + L, fun N hN s hs => (hK N (by omega) hs).bind (hL N (by omega) hs)⟩
  · intro N s hs
    rcases hp.only N hs with hstops | hfuel
    · cases hstops with
      | fault h => exact .inl (.fault (by rw [exec_bind, h]))
      | @answer a h =>
        show Stops (p N >>= f N) s (g a) ∨ _
        rcases (hf a rfl).only N hs with hstops | hfuel
        · have hbind : Stops (p N >>= f N) s (.ok a >>= g) :=
            (Stops.answer h).bind fun b hb => by
              cases hb
              exact hstops
          exact .inl hbind
        · exact .inr (by rw [exec_then h, hfuel])
    · exact .inr (exec_bind_fault hfuel)

end ComesTo

end

/-! ## nodes -/

/-- evaluating the node `v` in the frames `gs` gives `r`, and leaves its own frame empty -/
def Gives (gs : Frames) (v : Value) (r : Except Fault Value) : Prop :=
  ComesTo gs (fun N => evaluate N v) (r.map fun a => (({} : Frame), a))

section

variable {β : Type} {gs : Frames} {v a : Value} {tag : String} {xs : List Value}
  {r : Except Fault Value}

/-- a node is visited with one more frame, which is closed at the end -/
theorem Gives.of_visit (h : ComesTo ({} :: gs) (fun N => visit N v) r) : Gives gs v r := by
  have hstops : ∀ {N : Nat} {s : Evaluator}, Stops (visit N v) ⟨{} :: s.frames, s.out⟩ r →
      Stops (do openFrame; let a ← visit N v; let f ← closeFrame; pure (f, a)) s
        (r.map fun a => (({} : Frame), a)) := by
    intro N s hv
    have hopen : exec openFrame s = (.ok (), ⟨{} :: s.frames, s.out⟩) := rfl
    cases hv with
    | answer hv => exact .answer (by rw [exec_then hopen, exec_then hv]; rfl)
    | fault hv => exact .fault (by rw [exec_then hopen, exec_bind, hv])
  refine ComesTo.succ (p := fun N => do
    openFrame; let a ← visit N v; let f ← closeFrame; pure (f, a)) ⟨?_, fun N s hs => ?_⟩ rfl
      fun _ => rfl
  · obtain ⟨K, hK⟩ := h.enough
    exact ⟨K, fun N hN s hs => hstops (hK N hN (congrArg (List.cons {}) hs))⟩
  · have hframes : (⟨{} :: s.frames, s.out⟩ : Evaluator).frames = {} :: gs :=
      congrArg (List.cons {}) hs
    rcases h.only N hframes with hv | hfuel
    · exact .inl (hstops hv)
    · have hopen : exec openFrame s = (.ok (), ⟨{} :: s.frames, s.out⟩) := rfl
      exact .inr (by rw [exec_then hopen]; exact exec_bind_fault hfuel)

/-- the same from the rule for its kind, for a node that is a list -/
theorem Gives.list (low : String) (hlow : tag.toLower = low)
    (h : ComesTo ({} :: gs) (fun N => apply N low (.str tag :: xs)) r) :
    Gives gs (.list (.str tag :: xs)) r := by
  subst hlow
  exact .of_visit (h.succ rfl fun _ => rfl)

/-- the same for a node that is a tuple -/
theorem Gives.tuple (low : String) (hlow : tag.toLower = low)
    (h : ComesTo ({} :: gs) (fun N => apply N low (.str tag :: xs)) r) :
    Gives gs (.tuple (.str tag :: xs)) r := by
  subst hlow
  exact .of_visit (h.succ rfl fun _ => rfl)

/-- a rule that goes on with the value of a node -/
theorem Gives.bind {f : Nat → Frame × Value → Eval β} {g : Value → Except Fault β}
    (h : Gives gs v r) (hf : ∀ a, ComesTo gs (fun N => f N ({}, a)) (g a)) :
    ComesTo gs (fun N => evaluate N v >>= f N) (r >>= g) := by
  cases r with
  | error e => exact ComesTo.bind (g := fun p => g p.2) h nofun
  | ok a =>
    refine ComesTo.bind (g := fun p => g p.2) h ?_
    rintro _ ⟨⟩
    exact hf a

end

/-! ## expressions -/

theorem gives_name (gs : Frames) (x : String) : Gives gs (nameValue x) (gs.value x) := by
  refine .tuple "name" ruleNames.name ?_
  rw [← Frames.value_push gs]
  refine ComesTo.succ (p := fun _ => find (.str x) >>= fun r => pure r.2.1) ?_ rfl fun _ => rfl
  have hstops : ∀ s : Evaluator, s.frames = {} :: gs →
      Stops (find (.str x) >>= fun r => pure r.2.1) s (Frames.value ({} :: gs) x) := by
    intro s hs
    have hfind : exec (find (.str x)) s = (Frames.find ({} :: gs) (.str x), s) := by
      rw [← hs]
      rfl
    rw [Frames.value, Frames.seen]
    cases hr : Frames.find ({} :: gs) (.str x) with
    | ok r => exact .answer (by rw [hr] at hfind; rw [exec_then hfind]; rfl)
    | error e => exact .fault (by rw [hr] at hfind; rw [exec_bind, hfind])
  exact ⟨⟨0, fun _ _ s hs => hstops s hs⟩, fun _ s hs => .inl (hstops s hs)⟩

theorem gives_number (gs : Frames) (n : Nat) : Gives gs (Factor.number n).toValue (.ok (.int n)) :=
  .tuple "number" ruleNames.number (.succ (.pure _) rfl fun _ => rfl)

theorem applyTerm_eq (op : AddOp) (a b : Value) :
    applyTerm (.str op.word) a b = lift (op.result a b) := by
  cases op <;> rfl

theorem applyFactor_eq (op : MulOp) (a b : Value) :
    applyFactor (.str op.word) a b = lift (op.result a b) := by
  cases op <;> rfl

theorem applySign_eq (sign : Option AddOp) (a : Value) :
    (match signValue sign with
      | .str "MINUS" => lift (a.mul (.int (-1)))
      | _ => pure a : Eval Value) = lift (signResult sign a) := by
  rcases sign with _ | _ | _ <;> rfl

mutual

/-- **Evaluation of an expression**, in any frames. -/
theorem gives_expr : ∀ (e : Expr) (gs : Frames), Gives gs e.toValue (e.result gs.value)
  | .mk sign first rest, gs => by
    refine .list "expression" ruleNames.expression ?_
    rw [← Frames.value_push gs]
    refine .succ (p := fun N => do
      let p ← evaluate N first.toValue
      let total ← terms N p.2 (Expr.tailValues rest)
      match signValue sign with
      | .str "MINUS" => lift (total.mul (.int (-1)))
      | _ => pure total) ?_ rfl fun _ => rfl
    refine (gives_term first ({} :: gs)).bind fun total => ?_
    refine (terms_come rest ({} :: gs) total).bind fun total _ => ?_
    rw [applySign_eq]
    exact .lift _

theorem terms_come : ∀ (rest : List (AddOp × Term)) (gs : Frames) (total : Value),
    ComesTo gs (fun N => terms N total (Expr.tailValues rest)) (Expr.resultFrom gs.value total rest)
  | [], _, total => .succ (.pure total) rfl fun _ => rfl
  | (op, x) :: rest, gs, total => by
    refine .succ (p := fun N => do
      let p ← evaluate N x.toValue
      let total ← applyTerm (.str op.word) total p.2
      terms N total (Expr.tailValues rest)) ?_ rfl fun _ => rfl
    refine (gives_term x gs).bind fun v => ?_
    rw [applyTerm_eq]
    exact (ComesTo.lift _).bind fun total _ => terms_come rest gs total

theorem gives_term : ∀ (x : Term) (gs : Frames), Gives gs x.toValue (x.result gs.value)
  | .mk first rest, gs => by
    refine .list "term" ruleNames.term ?_
    rw [← Frames.value_push gs]
    exact .succ ((gives_factor first ({} :: gs)).bind fun total =>
      factors_come rest ({} :: gs) total) rfl fun _ => rfl

theorem factors_come : ∀ (rest : List (MulOp × Factor)) (gs : Frames) (total : Value),
    ComesTo gs (fun N => factors N total (Term.tailValues rest))
      (Term.resultFrom gs.value total rest)
  | [], _, total => .succ (.pure total) rfl fun _ => rfl
  | (op, x) :: rest, gs, total => by
    refine .succ (p := fun N => do
      let p ← evaluate N x.toValue
      let total ← applyFactor (.str op.word) total p.2
      factors N total (Term.tailValues rest)) ?_ rfl fun _ => rfl
    refine (gives_factor x gs).bind fun v => ?_
    rw [applyFactor_eq]
    exact (ComesTo.lift _).bind fun total _ => factors_come rest gs total

theorem gives_factor : ∀ (x : Factor) (gs : Frames), Gives gs x.toValue (x.result gs.value)
  | .name x, gs => gives_name gs x
  | .number n, gs => gives_number gs n
  | .paren e, gs => gives_expr e gs

end

/-! ## answers -/

/-- evaluating the node `v` answers `a`, with some budget -/
def Evaluates (s : Evaluator) (v a : Value) : Prop := ∃ N f s', run N v s = (.ok (f, a), s')

theorem Gives.evaluates_iff {s : Evaluator} {v a : Value} {r : Except Fault Value}
    (h : Gives s.frames v r) : Evaluates s v a ↔ r = .ok a := by
  constructor
  · rintro ⟨N, f, s', hrun⟩
    have hexec : exec (evaluate N v) s = (.ok (f, a), s') := hrun
    rcases h.only N rfl with hstops | hfuel
    · cases r with
      | ok b =>
        cases hstops with
        | answer hb =>
          rw [hb] at hexec
          cases hexec
          rfl
      | error e =>
        cases hstops with
        | fault he =>
          rw [he] at hexec
          cases hexec
    · rw [hexec] at hfuel
      cases hfuel
  · rintro rfl
    obtain ⟨K, hK⟩ := h.enough
    cases hK K (Nat.le_refl K) rfl with
    | answer ha => exact ⟨K, {}, s, ha⟩

end Evaluator

end Pl0Kit
