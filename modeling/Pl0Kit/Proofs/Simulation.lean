import Pl0Kit.Proofs.Arithmetic
import Pl0Kit.Proofs.Resolved
import Pl0Kit.Proofs.Stepping

/-!
# The machine follows the meaning of programs

Compiled code is run at the places of a program `xs` where it stands: the code still to run is
always a rest of `xs`.  Where names are `Readable`, the code of an expression pushes its computed
value on any stack (`ExprCode.computes`).

`Linked` collects what the names in scope stand for in `xs`, and `Holds` says that the cells of
variables contain a store.  Then the code of a statement changes storage and output as `Runs` says
(`Runs.carries`), for every statement within the fragment of sums and products.
-/

namespace Pl0Kit.Machine

/-! ## steps one after the other -/

/-- some steps, after each of which the machine goes on -/
inductive Leads : State → State → Prop
  | refl (s : State) : Leads s s
  | step {s s' s'' : State} : s.step = (.ok true, s') → Leads s' s'' → Leads s s''

namespace Leads

theorem one {s s' : State} (h : s.step = (.ok true, s')) : Leads s s' := .step h (.refl s')

theorem trans {s s' s'' : State} (h : Leads s s') (h' : Leads s' s'') : Leads s s'' := by
  induction h with
  | refl _ => exact h'
  | step hs _ ih => exact .step hs (ih h')

/-- a run with enough fuel takes these steps first -/
theorem runFor {s s' : State} (h : Leads s s') :
    ∃ n, ∀ fuel done, State.runFor.go (n + fuel) done s = State.runFor.go fuel (done + n) s' := by
  induction h with
  | refl s => exact ⟨0, fun fuel done => by rw [Nat.zero_add, Nat.add_zero]⟩
  | @step s s' s'' hs _ ih =>
    obtain ⟨n, hn⟩ := ih
    refine ⟨n + 1, fun fuel done => ?_⟩
    rw [Nat.add_right_comm, State.runFor.go, hs]
    show State.runFor.go (n + fuel) (done + 1) s' = _
    rw [hn, Nat.add_assoc, Nat.add_comm 1]

end Leads

/-- some steps, each of which goes on at a later place -/
inductive Advances : State → State → Prop
  | refl (s : State) : Advances s s
  | step {s s' s'' : State} {a b : Int} : s.step = (.ok true, s') → s.offset = .int a →
      s'.offset = .int b → a < b → Advances s' s'' → Advances s s''

namespace Advances

theorem trans {s s' s'' : State} (h : Advances s s') (h' : Advances s' s'') : Advances s s'' := by
  induction h with
  | refl _ => exact h'
  | step hs ha hb hlt _ ih => exact .step hs ha hb hlt (ih h')

theorem leads {s s' : State} (h : Advances s s') : Leads s s' := by
  induction h with
  | refl s => exact .refl s
  | step hs _ _ _ _ ih => exact .step hs ih

/-- an instruction that goes on with the next one -/
theorem one {xs c : List Item} {x : Item} {mem st st' : List Value} {out out' : String}
    (h : (spot xs mem (x :: c) st out).step = (.ok true, spot xs mem c st' out'))
    (hx : 0 < x.size) : Advances (spot xs mem (x :: c) st out) (spot xs mem c st' out') := by
  refine .step h rfl rfl ?_ (.refl _)
  rw [address, address, size_cons]
  omega

end Advances

section Rest

variable {xs c c' : List Item} {x : Item} {mem st : List Value} {out w : String} {n : Int} {a : Nat}
  {o : Opcode}

theorem rest_pos (hend : xs.getLast? = some (.op .halt)) (h : x :: c <:+ xs) (hx : x ≠ .op .halt) :
    0 < size c := by
  obtain ⟨pre, hpre⟩ := h
  exact size_pos_of_halt hend hx hpre.symm

theorem rest_tail {x : Item} (h : x :: c <:+ xs) : c <:+ xs := (List.suffix_cons x c).trans h

theorem rest_append {a : List Item} (h : a ++ c <:+ xs) : c <:+ xs :=
  (List.suffix_append a c).trans h

theorem advance_push (hend : xs.getLast? = some (.op .halt)) (hm : Loaded xs mem)
    (hw : operand xs w = .int n) (h : .opWord .push w :: c <:+ xs) :
    Advances (spot xs mem (.opWord .push w :: c) st out) (spot xs mem c (.int n :: st) out) := by
  have hpos := rest_pos hend h nofun
  obtain ⟨pre, hpre⟩ := h
  exact .one (spot_push hm hw hpre.symm hpos) Nat.two_pos

theorem advance_load (hend : xs.getLast? = some (.op .halt)) (hm : Loaded xs mem)
    (hw : operand xs w = .int a) (ha : mem[a]? = some (.int n)) (h : .opWord .load w :: c <:+ xs) :
    Advances (spot xs mem (.opWord .load w :: c) st out) (spot xs mem c (.int n :: st) out) := by
  have hpos := rest_pos hend h nofun
  obtain ⟨pre, hpre⟩ := h
  exact .one (spot_load hm hw ha hpre.symm hpos) Nat.two_pos

theorem advance_binary (hend : xs.getLast? = some (.op .halt)) (hm : Loaded xs mem)
    {f : Int → Int → Int} (hf : o.binary? = some f) (h : .op o :: c <:+ xs) (p q : Int) :
    Advances (spot xs mem (.op o :: c) (.int p :: .int q :: st) out)
      (spot xs mem c (.int (f p q) :: st) out) := by
  have hhalt : Item.op o ≠ .op .halt := by
    intro he
    cases he
    cases hf
  have hpos := rest_pos hend h hhalt
  obtain ⟨pre, hpre⟩ := h
  exact .one (spot_binary hm hf hpre.symm hpos p q) Nat.one_pos

end Rest

end Pl0Kit.Machine

namespace Pl0Kit.Generator

open Machine

/-! ## expressions -/

/-- the names in the frames `fs` have the values `ρ` in the memory of a program `xs` -/
structure Readable (xs : List Item) (mem : List Value) (fs : Frames) (ρ : String → Int) : Prop where
  ends : xs.getLast? = some (.op .halt)
  loaded : Loaded xs mem
  const : ∀ {x : String} {v : Value} {n : Nat}, fs.find? (.str x) = some (.const, v, n) →
    ∃ k : Nat, v = .int k ∧ ρ x = k
  var : ∀ {x : String} {v : Value} {n : Nat}, fs.find? (.str x) = some (.var, v, n) →
    ∃ (l : String) (a : Nat), v = .str l ∧ operand xs l = .int a ∧ mem[a]? = some (.int (ρ x))

section Computes

variable {xs c : List Item} {mem st : List Value} {fs : Frames} {ρ : String → Int} {out : String}
  {F : Fragment}

theorem advance_name (hR : Readable xs mem fs ρ) {x : String} {es : List Event}
    (h : FactorCode fs (.name x) es) (hc : itemsOf es ++ c <:+ xs) :
    Advances (spot xs mem (itemsOf es ++ c) st out) (spot xs mem c (.int (ρ x) :: st) out) := by
  cases h with
  | var hx =>
    obtain ⟨l, a, rfl, hl, ha⟩ := hR.var hx
    exact advance_load hR.ends hR.loaded hl ha hc
  | const hx =>
    obtain ⟨k, rfl, hk⟩ := hR.const hx
    rw [hk]
    exact advance_push hR.ends hR.loaded (operand_intText xs k) hc

/-- the top of the stack is the left operand -/
theorem advance_add (hR : Readable xs mem fs ρ) (op : AddOp) (a b : Int)
    (hc : (addEvent op).items ++ c <:+ xs) :
    Advances (spot xs mem ((addEvent op).items ++ c) (.int a :: .int b :: st) out)
      (spot xs mem c (.int (op.apply a b) :: st) out) := by
  cases op with
  | plus => exact advance_binary hR.ends hR.loaded (o := .add) rfl hc a b
  | minus => exact advance_binary hR.ends hR.loaded (o := .sub) rfl hc a b

theorem advance_sign (hR : Readable xs mem fs ρ) (sign : Option AddOp) (n : Int)
    (hc : itemsOf (signEvents sign) ++ c <:+ xs) :
    Advances (spot xs mem (itemsOf (signEvents sign) ++ c) (.int n :: st) out)
      (spot xs mem c (.int (signed sign n) :: st) out) := by
  rcases sign with _ | _ | _
  · exact .refl _
  · exact .refl _
  · refine (advance_push hR.ends hR.loaded (operand_minusOne xs) hc).trans ?_
    rw [signed, Int.mul_comm]
    exact advance_binary hR.ends hR.loaded (o := .mul) rfl (rest_tail hc) (-1) n

mutual

/-- the code of an expression pushes its computed value, and has no jumps -/
theorem ExprCode.advances (hR : Readable xs mem fs ρ) (hF : ∀ op, F.mul op → op = .times) :
    ∀ {e : Expr} {es : List Event}, ExprCode fs e es → e.Within F →
      ∀ {c : List Item} {st : List Value}, itemsOf es ++ c <:+ xs →
        Advances (spot xs mem (itemsOf es ++ c) st out)
          (spot xs mem c (.int (e.computed ρ) :: st) out)
  | .mk sign _ _, _, .mk ht hr, he, c, st, hc => by
    rw [itemsOf_append, itemsOf_append, List.append_assoc, List.append_assoc] at hc ⊢
    refine (ht.advances hR hF he.1 hc).trans ?_
    refine (hr.advances hR hF he.2 (rest_append hc)).trans ?_
    exact advance_sign hR sign _ (rest_append (rest_append hc))

theorem TermsCode.advances (hR : Readable xs mem fs ρ) (hF : ∀ op, F.mul op → op = .times) :
    ∀ {rest : List (AddOp × Term)} {es : List Event}, TermsCode fs rest es →
      Expr.tailWithin F rest → ∀ {total : Int} {c : List Item} {st : List Value},
        itemsOf es ++ c <:+ xs →
          Advances (spot xs mem (itemsOf es ++ c) (.int total :: st) out)
            (spot xs mem c (.int (Expr.computedFrom ρ total rest) :: st) out)
  | _, _, .nil, _, _, _, _, _ => .refl _
  | (op, x) :: _, _, .cons hx hr, he, total, c, st, hc => by
    rw [itemsOf_append, itemsOf_cons, List.append_assoc, List.append_assoc] at hc ⊢
    refine (hx.advances hR hF he.2.1 hc).trans ?_
    refine (advance_add hR op _ total (rest_append hc)).trans ?_
    exact hr.advances hR hF he.2.2 (rest_append (rest_append hc))

theorem TermCode.advances (hR : Readable xs mem fs ρ) (hF : ∀ op, F.mul op → op = .times) :
    ∀ {x : Term} {es : List Event}, TermCode fs x es → x.Within F →
      ∀ {c : List Item} {st : List Value}, itemsOf es ++ c <:+ xs →
        Advances (spot xs mem (itemsOf es ++ c) st out)
          (spot xs mem c (.int (x.computed ρ) :: st) out)
  | _, _, .mk hf hr, he, c, st, hc => by
    rw [itemsOf_append, List.append_assoc] at hc ⊢
    exact (hf.advances hR hF he.1 hc).trans (hr.advances hR hF he.2 (rest_append hc))

theorem FactorsCode.advances (hR : Readable xs mem fs ρ) (hF : ∀ op, F.mul op → op = .times) :
    ∀ {rest : List (MulOp × Factor)} {es : List Event}, FactorsCode fs rest es →
      Term.tailWithin F rest → ∀ {total : Int} {c : List Item} {st : List Value},
        itemsOf es ++ c <:+ xs →
          Advances (spot xs mem (itemsOf es ++ c) (.int total :: st) out)
            (spot xs mem c (.int (Term.computedFrom ρ total rest) :: st) out)
  | _, _, .nil, _, _, _, _, _ => .refl _
  | (.times, x) :: _, _, .cons hx hr, he, total, c, st, hc => by
    rw [itemsOf_append, itemsOf_append, List.append_assoc, List.append_assoc] at hc ⊢
    refine (hx.advances hR hF he.2.1 hc).trans ?_
    refine (advance_binary hR.ends hR.loaded (o := .mul) rfl (rest_append hc) _ total).trans ?_
    rw [Int.mul_comm]
    exact hr.advances hR hF he.2.2 (rest_tail (rest_append hc))
  | (.divide, _) :: _, _, .cons _ _, he, _, _, _, _ => nomatch hF .divide he.1

theorem FactorCode.advances (hR : Readable xs mem fs ρ) (hF : ∀ op, F.mul op → op = .times) :
    ∀ {x : Factor} {es : List Event}, FactorCode fs x es → x.Within F →
      ∀ {c : List Item} {st : List Value}, itemsOf es ++ c <:+ xs →
        Advances (spot xs mem (itemsOf es ++ c) st out)
          (spot xs mem c (.int (x.computed ρ) :: st) out)
  | .name _, _, h, _, _, _, hc => advance_name hR h hc
  | .number n, _, .number, _, _, _, hc => advance_push hR.ends hR.loaded (operand_intText xs n) hc
  | .paren _, _, .paren h, he, _, _, hc => h.advances hR hF he hc

end

theorem ExprCode.computes (hR : Readable xs mem fs ρ) (hF : ∀ op, F.mul op → op = .times) {e : Expr}
    {es : List Event} (h : ExprCode fs e es) (he : e.Within F) (hc : itemsOf es ++ c <:+ xs) :
    Leads (spot xs mem (itemsOf es ++ c) st out) (spot xs mem c (.int (e.computed ρ) :: st) out) :=
  (h.advances hR hF he hc).leads

end Computes

/-! ## links -/

/-- what names in the frames `fs` stand for in the program `xs`, where the variable `x` has its cell
at the place `slot x` -/
structure Linked (xs : List Item) (S : Scope) (fs : Frames) (slot : String → Nat) : Prop where
  ends : xs.getLast? = some (.op .halt)
  label : ∀ {l : String} {c : List Item}, .label l :: c <:+ xs → operand xs l = .int (address xs c)
  const : ∀ {x : String} {v : Value} {n : Nat}, fs.find? (.str x) = some (.const, v, n) →
    ∃ k : Nat, v = .int k ∧ S.const x = some (k : Int)
  var : ∀ {x : String} {v : Value} {n : Nat}, fs.find? (.str x) = some (.var, v, n) →
    S.const x = none ∧ x ∈ S.vars ∧
      ∃ l, v = .str l ∧ operand xs l = .int (slot x) ∧ DataAt xs (slot x)
  slots : ∀ {x y : String}, x ∈ S.vars → y ∈ S.vars → slot x = slot y → x = y
  proc : ∀ {p : String} {v : Value} {n : Nat}, fs.find? (.str p) = some (.proc, v, n) →
    ∃ l b k m cs c, v = .str l ∧ S.block p = some b ∧
      .label l :: (itemsOf cs ++ .op .ret :: c) <:+ xs ∧
        StatementCode assembly fs k b.body m cs ∧ b.body.Within .ordered

/-- the cells of variables contain the values of a store -/
def Holds (S : Scope) (slot : String → Nat) (σ : Store) (mem : List Value) : Prop :=
  ∀ x ∈ S.vars, mem[slot x]? = some (.int (σ x))

/-! ## values and conditions -/

section Expressions

variable {xs c : List Item} {S : Scope} {fs : Frames} {slot : String → Nat} {σ : Store}
  {mem : List Value} {ts ks : List Int} {out : String}

theorem Linked.readable (hL : Linked xs S fs slot) (hm : Loaded xs mem) (hσ : Holds S slot σ mem) :
    Readable xs mem fs (S.value σ) := by
  refine ⟨hL.ends, hm, fun {x v n} hx => ?_, fun {x v n} hx => ?_⟩
  · obtain ⟨k, hv, hconst⟩ := hL.const hx
    exact ⟨k, hv, by rw [Scope.value, hconst]; rfl⟩
  · obtain ⟨hconst, hmem, l, hv, hl, -⟩ := hL.var hx
    refine ⟨l, slot x, hv, hl, ?_⟩
    rw [Scope.value, hconst]
    exact hσ x hmem

/-- the code of an expression pushes its value -/
theorem ExprCode.leads (hL : Linked xs S fs slot) (hm : Loaded xs mem) (hσ : Holds S slot σ mem)
    {e : Expr} {es : List Event} (h : ExprCode fs e es) (he : e.Within .ordered)
    (hc : itemsOf es ++ c <:+ xs) :
    Leads (view xs mem (itemsOf es ++ c) ts ks out)
      (view xs mem c (e.denote (S.value σ) :: ts) ks out) := by
  rw [← Expr.computed_eq_denote (F := .ordered) (S.value σ) (fun _ => id) he]
  exact h.computes (F := .ordered) (hL.readable hm hσ) (fun _ => id) he hc

theorem binary?_denote (op : RelOp) : ∃ f, (compareOpcode op.word).binary? = some f ∧
    ∀ a b, f b a = if op.denote a b then 1 else 0 := by
  cases op with
  | lt | lte | gt | gte | e =>
    refine ⟨_, rfl, fun a b => ?_⟩
    simp only [RelOp.denote, decide_eq_true_eq]
  | ne =>
    refine ⟨_, rfl, fun a b => ?_⟩
    by_cases hab : a = b <;> simp [RelOp.denote, hab]

/-- the code of a condition pushes one or zero -/
theorem ConditionCode.leads (hL : Linked xs S fs slot) (hm : Loaded xs mem)
    (hσ : Holds S slot σ mem) {cond : Condition} {es : List Event}
    (h : ConditionCode assembly fs cond es) (hw : cond.Within .ordered)
    (hc : itemsOf es ++ c <:+ xs) :
    Leads (view xs mem (itemsOf es ++ c) ts ks out)
      (view xs mem c ((if cond.denote (S.value σ) then 1 else 0) :: ts) ks out) := by
  cases h with
  | odd _ => exact hw.1.elim
  | @compare l r op w cs ds hl hr hop =>
    cases hop
    obtain ⟨f, hf, hval⟩ := binary?_denote op
    rw [itemsOf_append, itemsOf_append, List.append_assoc, List.append_assoc] at hc ⊢
    refine (hl.leads hL hm hσ hw.2.1 hc).trans ?_
    refine (hr.leads hL hm hσ hw.2.2 (rest_append hc)).trans ?_
    rw [Condition.denote, ← hval]
    exact (advance_binary hL.ends hm hf (rest_append (rest_append hc)) _ _).leads

end Expressions

/-! ## statements -/

/-- from the code `d` the machine comes to the code `c`, while the store changes from `σ` to `σ'`
and `o` is printed -/
def Carries (xs : List Item) (S : Scope) (slot : String → Nat) (d c : List Item) (σ σ' : Store)
    (o : String) : Prop :=
  ∀ ⦃mem : List Value⦄ ⦃ks : List Int⦄ ⦃out : String⦄, Loaded xs mem → Holds S slot σ mem →
    ∃ mem', Loaded xs mem' ∧ Holds S slot σ' mem' ∧
      Leads (view xs mem d [] ks out) (view xs mem' c [] ks (out ++ o))

section Statements

variable {xs c d : List Item} {S : Scope} {fs : Frames} {slot : String → Nat} {σ σ' : Store}
  {o l : String}

theorem Carries.trans {σ₁ : Store} {c₁ : List Item} {o₁ : String}
    (h : Carries xs S slot d c₁ σ σ₁ o) (h' : Carries xs S slot c₁ c σ₁ σ' o₁) :
    Carries xs S slot d c σ σ' (o ++ o₁) := by
  intro mem ks out hm hσ
  obtain ⟨mem₁, hm₁, hσ₁, hlead₁⟩ := h hm hσ
  obtain ⟨mem₂, hm₂, hσ₂, hlead₂⟩ := h' hm₁ hσ₁
  rw [String.append_assoc] at hlead₂
  exact ⟨mem₂, hm₂, hσ₂, hlead₁.trans hlead₂⟩

theorem Carries.refl (c : List Item) : Carries xs S slot c c σ σ "" := by
  intro mem ks out hm hσ
  rw [String.append_empty]
  exact ⟨mem, hm, hσ, .refl _⟩

/-- labels take no step -/
theorem carries_label :
    Carries xs S slot (.label l :: d) c σ σ' o ↔ Carries xs S slot d c σ σ' o := by
  simp only [Carries, view_label]

theorem Carries.label (h : Carries xs S slot d (.label l :: c) σ σ' o) :
    Carries xs S slot d c σ σ' o := by
  intro mem ks out hm hσ
  obtain ⟨mem', hm', hσ', hlead⟩ := h hm hσ
  rw [view_label] at hlead
  exact ⟨mem', hm', hσ', hlead⟩

theorem carries_assign (hL : Linked xs S fs slot) {x : String} {e : Expr} {cs : List Event}
    {v : Value} {n : Nat} (he : ExprCode fs e cs) (hw : e.Within .ordered)
    (hx : fs.find? (.str x) = some (.var, v, n))
    (hc : itemsOf cs ++ .opWord .save v.text :: c <:+ xs) :
    Carries xs S slot (itemsOf cs ++ .opWord .save v.text :: c) c σ
      (Function.update σ x (e.denote (S.value σ))) "" := by
  intro mem ks out hm hσ
  obtain ⟨-, hmem, l, rfl, hl, ha⟩ := hL.var hx
  have hpos := rest_pos hL.ends (rest_append hc) nofun
  obtain ⟨pre, hpre⟩ := rest_append hc
  refine ⟨_, hm.set ha (e.denote (S.value σ)), fun y hy => ?_, ?_⟩
  · by_cases hyx : y = x
    · subst hyx
      obtain ⟨k, hk⟩ := hm.data _ ha
      rw [Function.update_self]
      exact List.getElem?_set_self (List.getElem?_eq_some_iff.1 hk).1
    · have hne : slot x ≠ slot y := fun h => hyx (hL.slots hy hmem h.symm)
      rw [Function.update_of_ne hyx, List.getElem?_set_ne hne]
      exact hσ y hy
  · rw [String.append_empty]
    refine (he.leads hL hm hσ hw hc).trans ?_
    exact .one (step_save hm hl ha hpre.symm hpos)

theorem carries_print (hL : Linked xs S fs slot) {e : Expr} {cs : List Event}
    (he : ExprCode fs e cs) (hw : e.Within .ordered)
    (hc : itemsOf cs ++ .op .print :: .op .pop :: c <:+ xs) :
    Carries xs S slot (itemsOf cs ++ .op .print :: .op .pop :: c) c σ σ
      (Text.intText (e.denote (S.value σ)) ++ "\n") := by
  intro mem ks out hm hσ
  have hprint := rest_append hc
  have hpop := rest_tail hprint
  have hpos := rest_pos hL.ends hprint nofun
  have hpos' := rest_pos hL.ends hpop nofun
  obtain ⟨pre, hpre⟩ := hprint
  obtain ⟨pre', hpre'⟩ := hpop
  refine ⟨mem, hm, hσ, (he.leads hL hm hσ hw hc).trans ?_⟩
  exact .step (step_print hm hpre.symm hpos _) (.one (step_pop hm hpre'.symm hpos' _))

theorem carries_jmp (hL : Linked xs S fs slot) (h : .opWord .jmp l :: d <:+ xs)
    (hl : .label l :: c <:+ xs) : Carries xs S slot (.opWord .jmp l :: d) c σ σ "" := by
  intro mem ks out hm hσ
  have hpos := rest_pos hL.ends hl nofun
  have hlabel := hL.label hl
  obtain ⟨pre, hpre⟩ := h
  obtain ⟨pre', hpre'⟩ := rest_tail hl
  rw [String.append_empty]
  exact ⟨mem, hm, hσ, .one (step_jmp hm hlabel hpre.symm hpre'.symm hpos)⟩

/-- a test goes on behind it if the condition holds, and else at the label -/
theorem carries_test (hL : Linked xs S fs slot) {cond : Condition} {cs : List Event} {b : Bool}
    (h : ConditionCode assembly fs cond cs) (hw : cond.Within .ordered)
    (hd : cond.denote (S.value σ) = b) (hc : itemsOf cs ++ .opWord .je l :: d <:+ xs)
    (hl : .label l :: c <:+ xs) :
    Carries xs S slot (itemsOf cs ++ .opWord .je l :: d) (bif b then d else c) σ σ "" := by
  intro mem ks out hm hσ
  have hje := rest_append hc
  have hpos := rest_pos hL.ends hje nofun
  have hpos' := rest_pos hL.ends hl nofun
  have hlabel := hL.label hl
  obtain ⟨pre, hpre⟩ := hje
  obtain ⟨pre', hpre'⟩ := rest_tail hl
  rw [String.append_empty]
  refine ⟨mem, hm, hσ, (h.leads hL hm hσ hw hc).trans ?_⟩
  refine .one ((step_je hm hlabel hpre.symm hpre'.symm hpos hpos').trans ?_)
  rw [hd]
  cases b <;> rfl

/-- a call comes back behind it once the body has run up to its return -/
theorem carries_call (hL : Linked xs S fs slot) {body r : List Item}
    (h : .opWord .call l :: c <:+ xs) (hl : .label l :: (body ++ .op .ret :: r) <:+ xs)
    (hbody : Carries xs S slot (body ++ .op .ret :: r) (.op .ret :: r) σ σ' o) :
    Carries xs S slot (.opWord .call l :: c) c σ σ' o := by
  intro mem ks out hm hσ
  have hpos := rest_pos hL.ends h nofun
  have hpos' := rest_pos hL.ends hl nofun
  have hlabel := hL.label hl
  obtain ⟨mem', hm', hσ', hlead⟩ := hbody hm hσ
  obtain ⟨pre, hpre⟩ := h
  obtain ⟨pre', hpre'⟩ := rest_tail hl
  obtain ⟨pre'', hpre''⟩ := rest_append (rest_tail hl)
  refine ⟨mem', hm', hσ', .step (step_call hm hlabel hpre.symm hpre'.symm hpos') ?_⟩
  exact hlead.trans (.one (step_ret hm' hpre''.symm (after_opWord hpre.symm) hpos))

mutual

/-- **The code of a statement does what the statement means.** -/
theorem Runs.carries (hL : Linked xs S fs slot) : ∀ {t : Statement} {σ σ' : Store} {o : String},
    Runs S t σ σ' o → ∀ {n m : Nat} {es : List Event}, StatementCode assembly fs n t m es →
      t.Within .ordered → ∀ {c : List Item}, itemsOf es ++ c <:+ xs →
        Carries xs S slot (itemsOf es ++ c) c σ σ' o
  | _, _, _, _, .assign, _, _, _, .assign he hx, hw, c, hc => by
    rw [itemsOf_append, List.append_assoc] at hc ⊢
    exact carries_assign hL he hw hx hc
  | _, _, _, _, .call hb hr, _, _, _, .call hp, hw, c, hc => by
    obtain ⟨l, b, k, m, cs, r, rfl, hb', hl, hcode, hwithin⟩ := hL.proc hp
    obtain rfl : _ = b := Option.some.inj (hb.symm.trans hb')
    exact carries_call hL hc hl (Runs.carries hL hr hcode hwithin (rest_tail hl))
  | _, _, _, _, .block hr, _, _, _, .block hs, hw, c, hc => RunsAll.carries hL hr hs hw hc
  | _, _, _, _, .print, _, _, _, .print he, hw, c, hc => by
    rw [itemsOf_append, List.append_assoc] at hc ⊢
    exact carries_print hL he hw hc
  | _, _, _, _, .ifTrue hd hr, _, _, _, .ifThen hcond hs, hw, c, hc => by
    rw [itemsOf_ifThen] at hc ⊢
    have hbody := rest_tail (rest_append hc)
    have htest := carries_test hL hcond hw.1 hd hc (rest_append hbody)
    have hrun := htest.trans (Runs.carries hL hr hs hw.2 hbody)
    rw [String.empty_append] at hrun
    exact hrun.label
  | _, _, _, _, .ifFalse hd, _, _, _, .ifThen hcond hs, hw, c, hc => by
    rw [itemsOf_ifThen] at hc ⊢
    exact carries_test hL hcond hw.1 hd hc (rest_append (rest_tail (rest_append hc)))
  | _, _, _, _, .whileTrue hd hr hagain, _, _, _, .whileDo ht hb hcond hs, hw, c, hc => by
    -- the rest of the loop is the same code, entered again at its first label
    have hloop := Runs.carries hL hagain (.whileDo ht hb hcond hs) hw hc
    rw [itemsOf_whileDo] at hc hloop ⊢
    have htop := rest_tail hc
    have hbody := rest_tail (rest_append htop)
    have hjmp := rest_append hbody
    have htest := carries_test hL hcond hw.1 hd htop (rest_tail hjmp)
    have hrun := htest.trans ((Runs.carries hL hr hs hw.2 hbody).trans (carries_jmp hL hjmp hc))
    rw [String.empty_append, String.append_empty] at hrun
    exact carries_label.2 (hrun.trans (carries_label.1 hloop))
  | _, _, _, _, .whileFalse hd, _, _, _, .whileDo ht hb hcond hs, hw, c, hc => by
    rw [itemsOf_whileDo] at hc ⊢
    have htop := rest_tail hc
    have hjmp := rest_append (rest_tail (rest_append htop))
    exact carries_label.2 (carries_test hL hcond hw.1 hd htop (rest_tail hjmp))

theorem RunsAll.carries (hL : Linked xs S fs slot) : ∀ {ts : List Statement} {σ σ' : Store}
    {o : String}, RunsAll S ts σ σ' o → ∀ {n m : Nat} {es : List Event},
      StatementsCode assembly fs n ts m es → Statement.Within.allWithin .ordered ts →
        ∀ {c : List Item}, itemsOf es ++ c <:+ xs → Carries xs S slot (itemsOf es ++ c) c σ σ' o
  | _, _, _, _, .nil, _, _, _, .nil, _, c, _ => .refl c
  | _, _, _, _, .cons hr hrs, _, _, _, .cons hs hss, hw, c, hc => by
    rw [itemsOf_append, List.append_assoc] at hc ⊢
    exact (Runs.carries hL hr hs hw.1 hc).trans (RunsAll.carries hL hrs hss hw.2 (rest_append hc))

end

end Statements

end Pl0Kit.Generator
