import Pl0Kit.Proofs.Contracts
import Pl0Kit.Proofs.ForthEmissions

/-!
# Visits of a Forth translator only add emissions

A visit can fail at any place, and a fault keeps the state.  `Grows p` says that `p` adds to what
has been emitted, whether it answers or fails.  It is shown for every rule, given that the visits of
the parts grow, and so for the visit of every tree, whatever its shape (`grows_run`).
-/

namespace Pl0Kit.Forth

open Act Generator Text

/-- what has been emitted stays, also if the visit fails -/
def Grows {α : Type} (p : ForthM α) : Prop :=
  ∀ t : Translator, t.emissions <+: (exec p t).2.emissions

namespace Grows

variable {α β : Type} {p : ForthM α} {f : α → ForthM β}

theorem answer (a : α) : Grows (pure a : ForthM α) := fun t => List.prefix_refl t.emissions

theorem fault (e : Fault) : Grows (throw e : ForthM α) := fun t => List.prefix_refl t.emissions

theorem state : Grows (get : ForthM Translator) := fun t => List.prefix_refl t.emissions

theorem change {g : Translator → Translator} (h : ∀ t, (g t).emissions = t.emissions) :
    Grows (modify g : ForthM PUnit) := fun t => (h t).symm ▸ List.prefix_refl t.emissions

theorem emission (e : Emission) : Grows (emit e) := fun t => List.prefix_append t.emissions [e]

/-- the second visit matters for answers of the first only -/
theorem bind_of (hp : Grows p) (hf : ∀ t a t', exec p t = (.ok a, t') → Grows (f a)) :
    Grows (p >>= f) := by
  intro t
  have hfirst := hp t
  rw [exec_bind]
  rcases hrun : exec p t with ⟨e | a, t'⟩
  · rw [hrun] at hfirst
    exact hfirst
  · rw [hrun] at hfirst
    exact hfirst.trans (hf t a t' hrun t')

theorem bind (hp : Grows p) (hf : ∀ a, Grows (f a)) : Grows (p >>= f) :=
  hp.bind_of fun _ a _ _ => hf a

theorem loop (xs : List α) {g : α → ForthM PUnit} (h : ∀ x, Grows (g x)) :
    Grows (forIn xs PUnit.unit fun x _ => do g x; pure (.yield PUnit.unit)) := by
  induction xs with
  | nil => exact answer _
  | cons x xs ih =>
    rw [List.forIn_cons]
    simp only [bind_assoc, pure_bind]
    exact (h x).bind fun _ => ih

end Grows

/-- a visit that grows and whose answers are of one kind -/
def Finds {α : Type} (p : ForthM α) (P : α → Prop) : Prop :=
  Grows p ∧ ∀ t a t', exec p t = (.ok a, t') → P a

namespace Finds

variable {α β : Type} {p : ForthM α} {P : α → Prop}

theorem answer {a : α} (h : P a) : Finds (pure a) P := by
  refine ⟨.answer a, fun t b t' hrun => ?_⟩
  cases hrun
  exact h

theorem fault (e : Fault) : Finds (throw e) P := by
  refine ⟨.fault e, fun t b t' hrun => ?_⟩
  cases hrun

theorem bind (h : Finds p P) {f : α → ForthM β} (hf : ∀ a, P a → Grows (f a)) : Grows (p >>= f) :=
  h.1.bind_of fun t a t' hrun => hf a (h.2 t a t' hrun)

theorem bind_finds (h : Finds p P) {f : α → ForthM β} {Q : β → Prop}
    (hf : ∀ a, P a → Finds (f a) Q) : Finds (p >>= f) Q := by
  refine ⟨h.bind fun a ha => (hf a ha).1, fun t b t' hrun => ?_⟩
  obtain ⟨a, t₁, h₁, h₂⟩ := exec_bind_ok.1 hrun
  exact (hf a (h.2 t a t₁ h₁)).2 t₁ b t' h₂

end Finds

/-- visits that grow, as a contract -/
def growing : Contract Translator where
  Keeps V p := Finds p V
  answer := Finds.answer
  fault := Finds.fault
  bind h hf := h.bind_finds hf

/-! ## rules -/

section Spots

variable {s : Spot Translator} {ss : List (Spot Translator)}

theorem grows_act (h : growing.Sound s) : Grows s.act := h.act.1

theorem finds_item (h : growing.Sound s) (i : Nat) : Finds (s.item i) growing.Sound :=
  Contract.keeps_item h i

theorem finds_items (h : growing.Sound s) : Finds s.items fun ps => ∀ p ∈ ps, growing.Sound p :=
  Contract.keeps_items h

theorem finds_pair (h : growing.Sound s) :
    Finds s.pair fun r => growing.Sound r.1 ∧ growing.Sound r.2 :=
  Contract.keeps_pair h

theorem grows_visitNodes (h : ∀ s ∈ ss, growing.Sound s) : Grows (visitNodes ss) :=
  (Contract.keeps_visitNodes h).1

theorem grows_visitAll (h : ∀ s ∈ ss, growing.Sound s) : Grows (visitAll ss) :=
  (Contract.keeps_visitAll h).1

theorem grows_wordFor (table : List (String × String)) (key : Value) :
    Grows (wordFor table key) := by
  unfold wordFor
  split
  · split
    · exact .answer _
    · exact .fault _
  · split
    · exact .fault _
    · exact .fault _

theorem grows_textOf (v : Value) : Grows (textOf v) := by
  unfold textOf
  split
  · exact .answer _
  · exact .fault _

theorem grows_lookup (v : Value) : Grows (lookup v) := by
  refine Grows.bind .state fun t => ?_
  by_cases hkey : (!v.isKey) = true
  · simp only [hkey, if_true]
    exact (Grows.fault _).bind_of fun _ _ _ h => by cases h
  · simp only [hkey, Bool.false_eq_true, if_false]
    split
    · exact .answer _
    · exact .fault _

theorem grows_declare (x k v : Value) : Grows (declare x k v) := by
  unfold declare
  split
  · exact .fault _
  · exact .change fun _ => rfl

theorem grows_number (s : Spot Translator) : Grows (numberRule s) := by
  refine Grows.bind .state fun t => ?_
  split
  · exact (Grows.emission _).bind fun _ => .change fun _ => rfl
  · exact (Grows.emission _).bind fun _ => .emission _

theorem grows_factors :
    ∀ {ss : List (Spot Translator)}, (∀ s ∈ ss, growing.Sound s) → Grows (factors ss)
  | [], _ => .answer _
  | s :: ss, h => by
    obtain ⟨hs, hss⟩ := List.forall_mem_cons.1 h
    refine (finds_pair hs).bind fun r hr => (grows_act hr.2).bind fun _ => ?_
    exact (grows_wordFor _ _).bind fun _ => (Grows.emission _).bind fun _ => grows_factors hss

theorem grows_terms :
    ∀ {ss : List (Spot Translator)}, (∀ s ∈ ss, growing.Sound s) → Grows (terms ss)
  | [], _ => .answer _
  | s :: ss, h => by
    obtain ⟨hs, hss⟩ := List.forall_mem_cons.1 h
    refine (finds_item hs 0).bind fun r _ => ?_
    split
    · exact (grows_act hs).bind fun _ => grows_terms hss
    · refine (finds_pair hs).bind fun r hr => (grows_act hr.2).bind fun _ => ?_
      exact (grows_wordFor _ _).bind fun _ => (Grows.emission _).bind fun _ => grows_terms hss

theorem grows_expression {sign : Spot Translator} {ss : List (Spot Translator)}
    (h : ∀ s ∈ ss, growing.Sound s) : Grows (expressionRule sign ss) := by
  have hterms := grows_terms h
  unfold expressionRule
  split
  · split
    · refine (finds_item (h _ List.mem_cons_self) 1).bind fun r hr =>
        (finds_item hr 0).bind fun _ _ => ?_
      split
      · exact Grows.bind (.change fun _ => rfl) fun _ => hterms
      · exact hterms.bind fun _ => .emission _
    · exact .fault _
  · exact hterms

theorem grows_name (s : Spot Translator) : Grows (nameRule s) := by
  refine (grows_lookup _).bind ?_
  rintro ⟨kind, v⟩
  dsimp only
  split
  · exact .emission _
  · refine (Grows.emission _).bind fun _ => (grows_textOf _).bind fun _ =>
      (Grows.emission _).bind fun _ => ?_
    exact (Grows.emission _).bind fun _ => Grows.state.bind fun _ =>
      (Grows.emission _).bind fun _ => .emission _

theorem grows_variables :
    ∀ {ss : List (Spot Translator)}, (∀ s ∈ ss, growing.Sound s) → Grows (declareVariables ss)
  | [], _ => .answer _
  | s :: ss, h => by
    obtain ⟨hs, hss⟩ := List.forall_mem_cons.1 h
    refine (finds_pair hs).bind fun r _ => (grows_textOf _).bind fun _ =>
      (Grows.emission _).bind fun _ => ?_
    exact (grows_declare _ _ _).bind fun _ => grows_variables hss

theorem grows_set {x e : Spot Translator} (hx : growing.Sound x) (he : growing.Sound e) :
    Grows (setRule x e) :=
  (grows_act he).bind fun _ => Grows.bind (.change fun _ => rfl) fun _ =>
    (grows_act hx).bind fun _ => .change fun _ => rfl

theorem finds_blockParts (h : growing.Sound s) :
    Finds (blockParts s) fun r => (∀ p ∈ r.1, growing.Sound p) ∧ growing.Sound r.2 := by
  refine (finds_items h).bind_finds fun ps hps => ?_
  split
  · rename_i c v q b
    simp only [List.forall_mem_cons] at hps
    exact .answer ⟨by simp [hps], hps.2.2.2.2.1⟩
  · exact .fault _

theorem grows_program (h : growing.Sound s) : Grows (programRule s) := by
  refine (finds_blockParts h).bind fun r hr => (grows_visitAll hr.1).bind fun _ => ?_
  refine (Grows.emission _).bind fun _ => (grows_act hr.2).bind fun _ => ?_
  exact (Grows.emission _).bind fun _ => .emission _

theorem grows_procedure (x : Spot Translator) (h : growing.Sound s) :
    Grows (procedureRule x s) := by
  refine (finds_blockParts h).bind fun r hr => Grows.bind (.change fun _ => rfl) fun _ => ?_
  refine (grows_visitAll hr.1).bind fun _ => (grows_textOf _).bind fun _ =>
    (Grows.emission _).bind fun _ => ?_
  exact (grows_act hr.2).bind fun _ => (Grows.emission _).bind fun _ => .change fun _ => rfl

theorem grows_call (x : Spot Translator) : Grows (callRule x) := by
  refine Grows.bind .state fun t => ?_
  split
  · refine Grows.bind (.loop _ fun _ => .emission _) fun _ => (Grows.emission _).bind fun _ => ?_
    exact Grows.bind (.loop _ fun _ => .emission _) fun _ => .answer _
  · exact .emission _

theorem grows_print (h : growing.Sound s) : Grows (printRule s) :=
  (grows_act h).bind fun _ => .emission _

theorem grows_term (h : ∀ s ∈ ss, growing.Sound s) : Grows (termRule ss) := by
  cases ss with
  | nil => exact .fault _
  | cons f fs =>
    obtain ⟨hf, hfs⟩ := List.forall_mem_cons.1 h
    exact (grows_act hf).bind fun _ => grows_factors hfs

theorem grows_odd (h : growing.Sound s) : Grows (oddRule s) :=
  (grows_act h).bind fun _ => .emission _

theorem grows_condition {l op r : Spot Translator} (hl : growing.Sound l) (hr : growing.Sound r) :
    Grows (conditionRule l op r) := by
  refine (grows_act hl).bind fun _ => (grows_act hr).bind fun _ => ?_
  exact (grows_wordFor _ _).bind fun _ => .emission _

theorem grows_if {c : Spot Translator} (hc : growing.Sound c) (h : growing.Sound s) :
    Grows (ifRule c s) := by
  refine (grows_act hc).bind fun _ => (Grows.emission _).bind fun _ => ?_
  exact (grows_act h).bind fun _ => .emission _

theorem grows_while {c : Spot Translator} (hc : growing.Sound c) (h : growing.Sound s) :
    Grows (whileRule c s) := by
  refine (Grows.emission _).bind fun _ => (grows_act hc).bind fun _ => ?_
  exact (Grows.emission _).bind fun _ => (grows_act h).bind fun _ => .emission _

/-! ## rules by the number of parts -/

variable {rule : List (Spot Translator) → ForthM Value}

theorem grows_exactly {n : Nat} {f : List (Spot Translator) → ForthM Unit}
    (h : exactly n f = some rule) (hf : Grows (f ss)) : Grows (rule ss) := by
  cases h
  dsimp only
  split
  · exact (Grows.fault _).bind_of fun _ _ _ h => by cases h
  · exact hf.bind fun _ => .answer _

theorem grows_onePart {f : Spot Translator → ForthM Unit} (h : onePart f = some rule)
    (hss : ∀ s ∈ ss, growing.Sound s) (hf : ∀ a, growing.Sound a → Grows (f a)) :
    Grows (rule ss) := by
  refine grows_exactly h ?_
  split
  · exact hf _ (hss _ (by simp))
  · exact .answer _

theorem grows_twoParts {f : Spot Translator → Spot Translator → ForthM Unit}
    (h : twoParts f = some rule) (hss : ∀ s ∈ ss, growing.Sound s)
    (hf : ∀ a b, growing.Sound a → growing.Sound b → Grows (f a b)) : Grows (rule ss) := by
  refine grows_exactly h ?_
  split
  · exact hf _ _ (hss _ (by simp)) (hss _ (by simp))
  · exact .answer _

theorem grows_threeParts {f : Spot Translator → Spot Translator → Spot Translator → ForthM Unit}
    (h : threeParts f = some rule) (hss : ∀ s ∈ ss, growing.Sound s)
    (hf : ∀ a b c, growing.Sound a → growing.Sound c → Grows (f a b c)) : Grows (rule ss) := by
  refine grows_exactly h ?_
  split
  · exact hf _ _ _ (hss _ (by simp)) (hss _ (by simp))
  · exact .answer _

/-- each rule keeps what has been emitted, if the visits of the parts do -/
theorem grows_rule {tag : String} (h : rules tag = some rule) (hss : ∀ s ∈ ss, growing.Sound s) :
    Grows (rule ss) := by
  have hdrop : ∀ s ∈ ss.drop 1, growing.Sound s := fun s hs => hss s (List.mem_of_mem_drop hs)
  unfold rules at h
  split at h
  · exact grows_onePart h hss fun _ _ => grows_number _
  · exact grows_onePart h hss fun _ => grows_print
  · cases h
    exact (grows_term hdrop).bind fun _ => .answer _
  · cases h
    dsimp only
    split
    · simp only [List.forall_mem_cons] at hss
      exact (grows_expression hss.2.2).bind fun _ => .answer _
    · exact .fault _
  · exact grows_twoParts h hss fun _ _ _ _ => grows_declare _ _ _
  · exact grows_onePart h hss fun _ _ => grows_name _
  · cases h
    exact (grows_variables hdrop).bind fun _ => .answer _
  · exact grows_twoParts h hss fun _ _ => grows_set
  · exact grows_onePart h hss fun _ => grows_odd
  · exact grows_threeParts h hss fun _ _ _ => grows_condition
  · exact grows_twoParts h hss fun _ _ => grows_if
  · exact grows_twoParts h hss fun _ _ => grows_while
  · exact grows_onePart h hss fun _ => grows_program
  · exact grows_twoParts h hss fun x _ _ => grows_procedure x
  · exact grows_onePart h hss fun _ _ => grows_call _
  · cases h

end Spots

theorem growing_governs : growing.Governs rules :=
  fun _ _ hrule _ hargs => ⟨grows_rule hrule hargs, fun _ _ _ _ => trivial⟩

/-- **Visits only add emissions**, whatever the tree is. -/
theorem grows_run (v : Value) : Grows (rules.run v) :=
  grows_act (Contract.sound_spot growing_governs v)

theorem growing_spots (xs : List Value) : ∀ s ∈ xs.map rules.spot, growing.Sound s := by
  intro s hs
  obtain ⟨v, -, rfl⟩ := List.mem_map.1 hs
  exact Contract.sound_spot growing_governs v

end Pl0Kit.Forth
