import Pl0Kit.Generator.Targets
import Pl0Kit.Proofs.Contracts

/-!
# What generators are made of

A generator is put together from a few actions: it reads its state, emits events, makes labels,
enters names into the innermost frame, and opens and closes frames.  A `Discipline` is a property
that these have and that sequences inherit.  It may depend on how many frames there are before an
action and after it.  Then all rules have the property, which they take and leave with the same
number of frames (`Discipline.governs`), and so does the generation of code for every tree, well
formed or not (`Discipline.generate`).
-/

namespace Pl0Kit.Generator

open Act Contract

/-- a property of actions that find `k` frames and leave `l`, and whose answers are in `V` -/
structure Discipline (T : Target) where
  Moves {α : Type} (k l : Nat) (V : α → Prop) (p : GenM α) : Prop
  answer {α : Type} {V : α → Prop} {a : α} {k : Nat} : V a → Moves k k V (pure a)
  fault {α : Type} {V : α → Prop} {k l : Nat} (e : Fault) : Moves k l V (throw e)
  bind {α β : Type} {V : α → Prop} {W : β → Prop} {p : GenM α} {f : α → GenM β} {k l m : Nat} :
    Moves k l V p → (∀ a, V a → Moves l m W (f a)) → Moves k m W (p >>= f)
  get {k : Nat} : Moves k k Any (get : GenM Gen)
  emit {k : Nat} (e : Event) : Moves k k Any (emit e)
  newLabel {k : Nat} (hint : String) : Moves k k Any (newLabel T hint)
  modifyTop {k : Nat} (f : Frame → Frame) : Moves (k + 1) (k + 1) Any (modifyTop f)
  openFrame {k : Nat} : Moves k (k + 1) Any openFrame
  closeFrame {k : Nat} : Moves (k + 1) k Any closeFrame

namespace Discipline

variable {T : Target} (D : Discipline T)

theorem Moves.bind {D : Discipline T} {α β : Type} {V : α → Prop} {W : β → Prop} {p : GenM α}
    {f : α → GenM β} {k l m : Nat} (h : D.Moves k l V p) (hf : ∀ a, V a → D.Moves l m W (f a)) :
    D.Moves k m W (p >>= f) :=
  D.bind h hf

/-- actions that leave as many frames as they find, where at least one may be changed -/
def steady : Contract Gen where
  Keeps V p := ∀ k, D.Moves (k + 1) (k + 1) V p
  answer h _ := D.answer h
  fault e _ := D.fault e
  bind h hf k := D.bind (h k) fun a ha => hf a ha k

/-! ## steps of the rules -/

theorem keeps_get : D.steady.Keeps Any (MonadState.get : GenM Gen) := fun _ => D.get

theorem keeps_emit (e : Event) : D.steady.Keeps Any (Generator.emit e) := fun _ => D.emit e

theorem keeps_newLabel (hint : String) : D.steady.Keeps Any (Generator.newLabel T hint) :=
  fun _ => D.newLabel hint

theorem keeps_modifyTop (f : Frame → Frame) : D.steady.Keeps Any (Generator.modifyTop f) :=
  fun _ => D.modifyTop f

theorem keeps_lift {α : Type} (r : Except Fault α) : D.steady.Keeps Any (lift r) := by
  cases r with
  | ok a => exact D.steady.answer trivial
  | error e => exact D.steady.fault e

theorem keeps_find (x : Value) : D.steady.Keeps Any (find x) :=
  D.keeps_get.andThen fun g => (D.keeps_lift (g.frames.find x)).andThen fun _ =>
    D.steady.answer trivial

theorem keeps_textOf (v : Value) : D.steady.Keeps Any (textOf v) := by
  unfold textOf
  split
  · exact D.steady.answer trivial
  · exact D.steady.fault _

theorem keeps_labelText (strict : Bool) (v : Value) : D.steady.Keeps Any (labelText strict v) := by
  cases strict with
  | true => exact D.keeps_textOf v
  | false => exact D.steady.answer trivial

theorem keeps_key (v : Value) : D.steady.Keeps Any (key v) := by
  unfold key
  split
  · exact D.steady.answer trivial
  · exact D.steady.fault _

/-! ## rules -/

section Rules

variable {ss : List (Spot Gen)}

theorem keeps_variables (h : ∀ s ∈ ss, D.steady.Sound s) :
    D.steady.Keeps Any (declareVariables T ss) := by
  induction ss with
  | nil => exact D.steady.answer trivial
  | cons s ss ih =>
    obtain ⟨hs, hss⟩ := List.forall_mem_cons.1 h
    refine (keeps_item hs 1).andThen fun x => (D.keeps_textOf _).andThen fun name => ?_
    refine (D.keeps_newLabel _).andThen fun label => (D.keeps_modifyTop _).andThen fun _ => ?_
    exact (D.keeps_emit _).andThen fun _ => ih hss

theorem keeps_constants (h : ∀ s ∈ ss, D.steady.Sound s) :
    D.steady.Keeps Any (declareConstants ss) := by
  induction ss with
  | nil => exact D.steady.answer trivial
  | cons s ss ih =>
    obtain ⟨hs, hss⟩ := List.forall_mem_cons.1 h
    refine (keeps_item hs 1).andThen fun x => (keeps_item hs 2).andThen fun c => ?_
    refine (D.keeps_key _).andThen fun name => (D.keeps_modifyTop _).andThen fun _ => ?_
    exact ih hss

/-- the frame of a procedure is closed before the next one is opened -/
theorem keeps_procedures (h : ∀ s ∈ ss, D.steady.Sound s) :
    D.steady.Keeps Any (declareProcedures T ss) := by
  induction ss with
  | nil => exact D.steady.answer trivial
  | cons s ss ih =>
    obtain ⟨hs, hss⟩ := List.forall_mem_cons.1 h
    refine (keeps_item hs 1).andThen fun x => (D.keeps_textOf _).andThen fun name => ?_
    refine (D.keeps_newLabel _).andThen fun label => (D.keeps_modifyTop _).andThen fun _ => ?_
    -- from here on there is one frame more, until it is closed
    intro k
    refine D.openFrame.bind fun _ _ => (D.keeps_emit _ (k + 1)).bind fun _ _ => ?_
    refine (keeps_item hs 2 (k + 1)).bind fun b hb =>
      (keeps_slice hb 1 3 (k + 1)).bind fun ds hds => ?_
    refine (keeps_visitAll hds (k + 1)).bind fun _ _ => (D.keeps_emit _ (k + 1)).bind fun _ _ => ?_
    refine (keeps_item hs 2 (k + 1)).bind fun b hb =>
      (keeps_item hb 4 (k + 1)).bind fun body hbody => ?_
    refine (hbody.act (k + 1)).bind fun _ _ => (D.keeps_emit _ (k + 1)).bind fun _ _ => ?_
    exact D.closeFrame.bind fun _ _ => ih hss k

theorem keeps_program (h : ∀ s ∈ ss, D.steady.Sound s) : D.steady.Keeps Any (programRule T ss) := by
  refine (D.keeps_emit _).andThen fun _ => (keeps_argument h 1).bind fun b hb => ?_
  refine (keeps_slice hb 1 4).bind fun ds hds => (keeps_visitAll hds).andThen fun _ => ?_
  refine (D.keeps_emit _).andThen fun _ => (keeps_item hb 4).bind fun body hbody => ?_
  exact hbody.act.andThen fun _ => (D.keeps_emit _).andThen fun _ => D.steady.answer trivial

theorem keeps_while (h : ∀ s ∈ ss, D.steady.Sound s) : D.steady.Keeps Any (whileRule T ss) := by
  refine (D.keeps_newLabel _).andThen fun top => (D.keeps_newLabel _).andThen fun bottom => ?_
  refine (keeps_argument h 1).bind fun c hc => (keeps_argument h 2).bind fun b hb => ?_
  refine (D.keeps_emit _).andThen fun _ => ?_
  have hclose : D.steady.Keeps Any (do Generator.emit (.loopClose top bottom); pure Value.none) :=
    (D.keeps_emit _).andThen fun _ => D.steady.answer trivial
  dsimp only
  split
  · refine hc.act.andThen fun _ => (D.keeps_emit _).andThen fun _ => ?_
    exact hb.act.andThen fun _ => hclose
  · exact hb.act.andThen fun _ => hc.act.andThen fun _ => hclose

theorem keeps_if (h : ∀ s ∈ ss, D.steady.Sound s) : D.steady.Keeps Any (ifRule T ss) := by
  refine (D.keeps_newLabel _).andThen fun label => ?_
  refine (keeps_argument h 1).bind fun c hc => (keeps_argument h 2).bind fun b hb => ?_
  refine hc.act.andThen fun _ => (D.keeps_emit _).andThen fun _ => ?_
  exact hb.act.andThen fun _ => (D.keeps_emit _).andThen fun _ => D.steady.answer trivial

theorem keeps_odd (h : ∀ s ∈ ss, D.steady.Sound s) : D.steady.Keeps Any (oddRule ss) := by
  refine (keeps_argument h 1).bind fun e he => he.act.andThen fun _ => ?_
  exact (D.keeps_emit _).andThen fun _ => D.steady.answer trivial

theorem keeps_condition (h : ∀ s ∈ ss, D.steady.Sound s) :
    D.steady.Keeps Any (conditionRule T ss) := by
  refine (keeps_argument h 2).andThen fun op => ?_
  refine (keeps_argument h 1).bind fun l hl => (keeps_argument h 3).bind fun r hr => ?_
  refine hl.act.andThen fun _ => hr.act.andThen fun _ => ?_
  exact (D.keeps_lift _).andThen fun _ => (D.keeps_emit _).andThen fun _ => D.steady.answer trivial

theorem keeps_set (h : ∀ s ∈ ss, D.steady.Sound s) : D.steady.Keeps Any (setRule T ss) := by
  refine (keeps_argument h 1).bind fun t ht => (keeps_item ht 1).andThen fun x => ?_
  refine (keeps_argument h 2).bind fun e he => he.act.andThen fun _ => ?_
  refine (D.keeps_find _).andThen fun r => ?_
  dsimp only
  split
  · refine (D.keeps_labelText _ _).andThen fun label => ?_
    exact (D.keeps_emit _).andThen fun _ => D.steady.answer trivial
  · exact (D.keeps_textOf _).andThen fun _ => D.steady.fault _

theorem keeps_call (h : ∀ s ∈ ss, D.steady.Sound s) : D.steady.Keeps Any (callRule ss) := by
  refine (keeps_argument h 1).andThen fun x => (D.keeps_find _).andThen fun r => ?_
  dsimp only
  split
  · refine (D.keeps_textOf _).andThen fun label => ?_
    exact (D.keeps_emit _).andThen fun _ => D.steady.answer trivial
  · exact D.steady.fault _

theorem keeps_factors (h : ∀ s ∈ ss, D.steady.Sound s) : D.steady.Keeps Any (factors ss) := by
  induction ss with
  | nil => exact D.steady.answer trivial
  | cons s ss ih =>
    obtain ⟨hs, hss⟩ := List.forall_mem_cons.1 h
    refine (keeps_item hs 1).bind fun x hx => hx.act.andThen fun _ =>
      (keeps_item hs 0).andThen fun op => ?_
    dsimp only
    split
    · exact (D.keeps_emit _).andThen fun _ => ih hss
    · exact (D.keeps_emit _).andThen fun _ => ih hss
    · exact ih hss

theorem keeps_term (h : ∀ s ∈ ss, D.steady.Sound s) : D.steady.Keeps Any (termRule ss) := by
  refine (keeps_argument h 1).bind fun x hx => hx.act.andThen fun _ => ?_
  refine (D.keeps_factors fun s hs => h s (List.mem_of_mem_drop hs)).andThen fun _ => ?_
  exact D.steady.answer trivial

theorem keeps_terms (h : ∀ s ∈ ss, D.steady.Sound s) : D.steady.Keeps Any (terms ss) := by
  induction ss with
  | nil => exact D.steady.answer trivial
  | cons s ss ih =>
    obtain ⟨hs, hss⟩ := List.forall_mem_cons.1 h
    refine (keeps_item hs 1).bind fun x hx => hx.act.andThen fun _ =>
      (keeps_item hs 0).andThen fun op => ?_
    dsimp only
    split
    · exact (D.keeps_emit _).andThen fun _ => ih hss
    · exact (D.keeps_emit _).andThen fun _ => ih hss
    · exact ih hss

theorem keeps_expression (h : ∀ s ∈ ss, D.steady.Sound s) :
    D.steady.Keeps Any (expressionRule ss) := by
  refine (keeps_argument h 2).bind fun x hx => hx.act.andThen fun _ => ?_
  refine (D.keeps_terms fun s hs => h s (List.mem_of_mem_drop hs)).andThen fun _ => ?_
  refine (keeps_argument h 1).andThen fun sign => ?_
  dsimp only
  split
  · exact (D.keeps_emit _).andThen fun _ => D.steady.answer trivial
  · exact D.steady.answer trivial

theorem keeps_print (h : ∀ s ∈ ss, D.steady.Sound s) : D.steady.Keeps Any (printRule ss) := by
  refine (keeps_argument h 1).bind fun e he => he.act.andThen fun _ => ?_
  exact (D.keeps_emit _).andThen fun _ => D.steady.answer trivial

theorem keeps_number (h : ∀ s ∈ ss, D.steady.Sound s) : D.steady.Keeps Any (numberRule ss) := by
  refine (keeps_argument h 1).andThen fun n => ?_
  exact (D.keeps_emit _).andThen fun _ => D.steady.answer trivial

theorem keeps_name (h : ∀ s ∈ ss, D.steady.Sound s) : D.steady.Keeps Any (nameRule T ss) := by
  refine (keeps_argument h 1).andThen fun x => (D.keeps_find _).andThen fun r => ?_
  dsimp only
  split
  · refine (D.keeps_labelText _ _).andThen fun label => ?_
    exact (D.keeps_emit _).andThen fun _ => D.steady.answer trivial
  · exact (D.keeps_emit _).andThen fun _ => D.steady.answer trivial
  · exact (D.keeps_textOf _).andThen fun _ => (D.steady.fault (V := Any) _).andThen fun _ =>
      D.steady.answer trivial

/-- every rule of a generator keeps to the discipline -/
theorem governs : D.steady.Governs (rules T) := by
  intro tag rule h args hargs
  have hdrop : ∀ s ∈ args.drop 1, D.steady.Sound s := fun s hs => hargs s (List.mem_of_mem_drop hs)
  unfold rules at h
  split at h
  · cases h
    exact (D.keeps_variables hdrop).andThen fun _ => D.steady.answer trivial
  · cases h
    exact (D.keeps_constants hdrop).andThen fun _ => D.steady.answer trivial
  · cases h
    exact (D.keeps_procedures hdrop).andThen fun _ => D.steady.answer trivial
  · cases h
    exact D.keeps_program hargs
  · cases h
    exact D.keeps_while hargs
  · cases h
    exact D.keeps_if hargs
  · split at h
    · cases h
      exact D.keeps_odd hargs
    · cases h
  · cases h
    exact D.keeps_condition hargs
  · cases h
    exact D.keeps_set hargs
  · cases h
    exact D.keeps_call hargs
  · cases h
    exact D.keeps_term hargs
  · cases h
    exact D.keeps_expression hargs
  · cases h
    exact D.keeps_print hargs
  · cases h
    exact D.keeps_number hargs
  · cases h
    exact D.keeps_name hargs
  · cases h

end Rules

/-- the frame of a tree is closed again -/
theorem generate (v : Value) : D.Moves 0 0 Any (Generator.generate T v) := by
  have hvisit : D.steady.Keeps Any ((rules T).run v) := (sound_spot D.governs v).act
  refine D.openFrame.bind fun _ _ => (hvisit 0).bind fun _ _ => ?_
  exact D.closeFrame.bind fun _ _ => D.answer trivial

end Discipline

end Pl0Kit.Generator
