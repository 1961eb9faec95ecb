import Pl0Kit.Proofs.GeneratorLaws

/-!
# The stack of frames during generation

A generator opens a frame for the tree that it is given and one for each procedure, and closes them
again if nothing fails.  Names are only ever entered into the innermost frame, and that is one that
the generator has opened.  So the frames that were there before are never touched, whatever the tree
is and wherever a fault stops the walk (`generate_keeps_frames`).

`Moves k l V m` gives the stack effect of an action: over any frames with `k` more, it leaves `l`
more.  Only opening and closing a frame change the number.  Stack effects are a discipline
(`stackEffects`), so the generation of code for a tree has the effect of none to none.
-/

namespace Pl0Kit.Generator

open Act Contract

variable {α β : Type} {V : α → Prop} {W : β → Prop} {k l m n : Nat} {fs : Frames}

/-! ## stack effects -/

/-- the outcome of an action that began with `n` labels: the frames `fs` are still there, with `l`
more if the action has answered, and no label has been given back -/
inductive Settled (fs : Frames) (n l : Nat) (V : α → Prop) : Except Fault α × Gen → Prop
  | answer {a : α} {g : Gen} (tops : Frames) : V a → g.frames = tops ++ fs → tops.length = l →
      n ≤ g.labels → Settled fs n l V (.ok a, g)
  | fault {e : Fault} {g : Gen} : fs <:+ g.frames → n ≤ g.labels → Settled fs n l V (.error e, g)

/-- over any frames with `k` more, an action leaves `l` more, or fails and leaves what was below -/
def Moves (k l : Nat) (V : α → Prop) (p : GenM α) : Prop :=
  ∀ ⦃g : Gen⦄ ⦃tops fs : Frames⦄, g.frames = tops ++ fs → tops.length = k →
    Settled fs g.labels l V (exec p g)

namespace Moves

theorem answer {a : α} (h : V a) : Moves k k V (pure a) := by
  intro g tops fs hg hk
  exact .answer tops h hg hk (Nat.le_refl _)

theorem fault (e : Fault) : Moves k l V (throw e) := by
  intro g tops fs hg _
  exact .fault ⟨tops, hg.symm⟩ (Nat.le_refl _)

/-- the effects of two actions, one after the other -/
theorem bind {p : GenM α} {f : α → GenM β} (h : Moves k l V p) (hf : ∀ a, V a → Moves l m W (f a)) :
    Moves k m W (p >>= f) := by
  intro g tops fs hg hk
  have hfirst := h hg hk
  rw [exec_bind]
  generalize exec p g = r at hfirst ⊢
  cases hfirst with
  | fault hfs hle => exact .fault hfs hle
  | @answer a g' tops' ha hg' hl hle =>
    have hsecond := hf a ha hg' hl
    show Settled fs g.labels m W (exec (f a) g')
    generalize exec (f a) g' = r at hsecond ⊢
    cases hsecond with
    | fault hfs hle' => exact .fault hfs (Nat.le_trans hle hle')
    | answer tops'' hb hg'' hm hle' => exact .answer tops'' hb hg'' hm (Nat.le_trans hle hle')

/-- an action that is not about frames -/
theorem modify {f : Gen → Gen} (hframes : ∀ g, (f g).frames = g.frames)
    (hlabels : ∀ g, g.labels ≤ (f g).labels) : Moves k k Any (modify f) := by
  intro g tops fs hg hk
  exact .answer tops trivial ((hframes g).trans hg) hk (hlabels g)

theorem openFrame : Moves k (k + 1) Any openFrame := by
  intro g tops fs hg hk
  refine .answer ({} :: tops) trivial ?_ (congrArg (· + 1) hk) (Nat.le_refl _)
  show {} :: g.frames = _
  rw [hg, List.cons_append]

theorem closeFrame : Moves (k + 1) k Any closeFrame := by
  intro g tops fs hg hk
  obtain ⟨frames, labels, events⟩ := g
  obtain ⟨f, rest, rfl⟩ := List.exists_cons_of_length_eq_add_one hk
  obtain rfl : frames = f :: (rest ++ fs) := hg
  exact .answer rest trivial rfl (Nat.succ.inj hk) (Nat.le_refl _)

end Moves

/-- stack effects are a discipline -/
def stackEffects (T : Target) : Discipline T where
  Moves := Moves
  answer := .answer
  fault := .fault
  bind := .bind
  get {k} := by
    intro g tops fs hg hk
    exact .answer tops trivial hg hk (Nat.le_refl _)
  emit _ := .modify (fun _ => rfl) fun _ => Nat.le_refl _
  newLabel {k} hint := by
    intro g tops fs hg hk
    exact .answer tops trivial hg hk (Nat.le_succ g.labels)
  modifyTop {k} f := by
    -- entries go into the innermost frame
    intro g tops fs hg hk
    obtain ⟨t, rest, rfl⟩ := List.exists_cons_of_length_eq_add_one hk
    refine .answer (f t :: rest) trivial ?_ hk (Nat.le_refl _)
    show g.frames.modifyTop f = _
    rw [hg]
    rfl
  openFrame := @Moves.openFrame
  closeFrame := @Moves.closeFrame

/-- **Generators touch no frames but their own.**  For every target, every tree and every generator:
if the generation of code answers, then the frames are those from before, and labels were at most
added.  If it fails, then the frames from before are still there, unchanged, below those that were
left open. -/
theorem generate_keeps_frames (T : Target) (v : Value) (g : Gen) :
    match exec (generate T v) g with
    | (.ok _, g') => g'.frames = g.frames ∧ g.labels ≤ g'.labels
    | (.error _, g') => g.frames <:+ g'.frames ∧ g.labels ≤ g'.labels := by
  have hmoves : Moves 0 0 Any (generate T v) := (stackEffects T).generate v
  have hleaves := hmoves (List.nil_append g.frames).symm rfl
  generalize exec (generate T v) g = r at hleaves ⊢
  cases hleaves with
  | fault hfs hle => exact ⟨hfs, hle⟩
  | answer tops _ hg hl hle =>
    obtain rfl := List.eq_nil_of_length_eq_zero hl
    exact ⟨hg, hle⟩

end Pl0Kit.Generator
