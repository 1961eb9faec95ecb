import Pl0Kit.Proofs.GeneratorLaws
import Pl0Kit.Proofs.Resolved

/-!
# Labels over many generations

A generator can be used for one tree after another.  Its counter of labels goes on, also after a
fault, so no label is ever made again.  `Makes T p g ls` says that the action `p`, run on the
generator `g`, makes the labels `ls`: these are all that `newLabel` answers with on the way, in this
order.  `History` threads one generator through many trees.

The actions of a generator other than `newLabel` leave the counter alone, so the numbers of the
labels that an action makes lie between the counts before and after it (`Makes.fresh`).  That every
generation makes some labels is a discipline (`traced`).
-/

namespace Pl0Kit.Generator

open Act Contract Machine

variable {T : Target} {α β : Type}

/-! ## the labels that are made -/

/-- `p`, run on `g`, makes the labels `ls` -/
inductive Makes (T : Target) : {α : Type} → GenM α → Gen → List String → Prop
  | pure {α : Type} {g : Gen} (a : α) : Makes T (pure a) g []
  | throw {α : Type} {g : Gen} (e : Fault) : Makes T (throw e : GenM α) g []
  | get {g : Gen} : Makes T (get : GenM Gen) g []
  | emit {g : Gen} (e : Event) : Makes T (emit e) g []
  | modifyTop {g : Gen} (f : Frame → Frame) : Makes T (modifyTop f) g []
  | openFrame {g : Gen} : Makes T openFrame g []
  | closeFrame {g : Gen} : Makes T closeFrame g []
  | newLabel {g g' : Gen} {hint label : String} : exec (newLabel T hint) g = (.ok label, g') →
      Makes T (newLabel T hint) g [label]
  | stop {α β : Type} {p : GenM α} {f : α → GenM β} {g g' : Gen} {e : Fault} {ls : List String} :
      Makes T p g ls → exec p g = (.error e, g') → Makes T (p >>= f) g ls
  | bind {α β : Type} {p : GenM α} {f : α → GenM β} {g g' : Gen} {a : α} {ls ks : List String} :
      Makes T p g ls → exec p g = (.ok a, g') → Makes T (f a) g' ks → Makes T (p >>= f) g (ls ++ ks)

/-- the labels that one generator makes for some trees, one after the other, whether the generation
of code for each of them answers or fails -/
inductive History (T : Target) : Gen → List Value → List String → Prop
  | nil {g : Gen} : History T g [] []
  | cons {g g' : Gen} {v : Value} {vs : List Value} {r : Except Fault (Frame × Value)}
      {ls ks : List String} :
      Makes T (generate T v) g ls → exec (generate T v) g = (r, g') → History T g' vs ks →
        History T g (v :: vs) (ls ++ ks)

/-- the labels of a part of a run have the numbers from one count to another -/
structure Counted (n m : Nat) (ls : List String) : Prop where
  le : n ≤ m
  fresh : Fresh n m ls

theorem Counted.none (n : Nat) : Counted n n [] := ⟨Nat.le_refl n, .nil⟩

theorem Counted.append {n m k : Nat} {ls ks : List String} (h : Counted n m ls)
    (h' : Counted m k ks) : Counted n k (ls ++ ks) :=
  ⟨h.le.trans h'.le, h.fresh.trans h'.fresh h.le h'.le⟩

/-- **The labels that an action makes carry the numbers that it takes from the counter.** -/
theorem Makes.counted (hT : T.label = serialLabel) {p : GenM α} {g : Gen} {ls : List String}
    (h : Makes T p g ls) : Counted g.labels (exec p g).2.labels ls := by
  induction h with
  | pure | throw | get | emit | modifyTop | openFrame => exact .none _
  | @closeFrame g =>
    have hlabels : (exec Generator.closeFrame g).2.labels = g.labels := by
      obtain ⟨_ | _, _, _⟩ := g <;> rfl
    rw [hlabels]
    exact .none _
  | @newLabel g g' hint label hrun =>
    obtain ⟨hlabel, rfl⟩ : T.label hint (g.labels + 1) = label ∧ { g with labels := g.labels + 1 } =
        g' := by
      cases hrun
      exact ⟨rfl, rfl⟩
    rw [hrun, ← hlabel, hT]
    exact ⟨Nat.le_succ _, .single hint (Nat.lt_succ_self _) (Nat.le_refl _)⟩
  | stop _ hrun ih =>
    rw [exec_bind, hrun]
    rwa [hrun] at ih
  | bind _ hrun _ ih ih' =>
    rw [exec_then hrun]
    rw [hrun] at ih
    exact ih.append ih'

theorem History.counted (hT : T.label = serialLabel) {g : Gen} {vs : List Value} {ls : List String}
    (h : History T g vs ls) : ∃ m, Counted g.labels m ls := by
  induction h with
  | nil => exact ⟨_, .none _⟩
  | cons hmakes hrun _ ih =>
    obtain ⟨m, hm⟩ := ih
    have hcounted := hmakes.counted hT
    rw [hrun] at hcounted
    exact ⟨m, hcounted.append hm⟩

/-! ## all generations make labels -/

/-- an action that makes some labels on every generator, and whose answers are in `V` -/
def Traced (T : Target) (V : α → Prop) (p : GenM α) : Prop :=
  ∀ g, (∃ ls, Makes T p g ls) ∧ ∀ a g', exec p g = (.ok a, g') → V a

theorem Traced.any {p : GenM α} (h : ∀ g, ∃ ls, Makes T p g ls) : Traced T Any p :=
  fun g => ⟨h g, fun _ _ _ => trivial⟩

theorem Traced.bind {V : α → Prop} {W : β → Prop} {p : GenM α} {f : α → GenM β}
    (h : Traced T V p) (hf : ∀ a, V a → Traced T W (f a)) : Traced T W (p >>= f) := by
  intro g
  obtain ⟨⟨ls, hls⟩, hV⟩ := h g
  cases hrun : exec p g with
  | mk r g' =>
    cases r with
    | error e =>
      refine ⟨⟨ls, .stop hls hrun⟩, fun b g'' hb => ?_⟩
      rw [exec_bind, hrun] at hb
      cases hb
    | ok a =>
      obtain ⟨⟨ks, hks⟩, hW⟩ := hf a (hV a g' hrun) g'
      refine ⟨⟨ls ++ ks, .bind hls hrun hks⟩, fun b g'' hb => ?_⟩
      rw [exec_then hrun] at hb
      exact hW b g'' hb

/-- the labels of an action can always be told -/
def traced (T : Target) : Discipline T where
  Moves _ _ := Traced T
  answer h g := ⟨⟨[], .pure _⟩, fun a g' hrun => by cases hrun; exact h⟩
  fault e g := ⟨⟨[], .throw e⟩, fun a g' hrun => by cases hrun⟩
  bind := Traced.bind
  get := .any fun _ => ⟨[], .get⟩
  emit e := .any fun _ => ⟨[], .emit e⟩
  newLabel hint := .any fun _ => ⟨[_], .newLabel rfl⟩
  modifyTop f := .any fun _ => ⟨[], .modifyTop f⟩
  openFrame := .any fun _ => ⟨[], .openFrame⟩
  closeFrame := .any fun _ => ⟨[], .closeFrame⟩

theorem exists_history (T : Target) (vs : List Value) : ∀ g, ∃ ls, History T g vs ls := by
  induction vs with
  | nil => exact fun g => ⟨[], .nil⟩
  | cons v vs ih =>
    intro g
    obtain ⟨⟨ls, hls⟩, -⟩ := (traced T).generate v g
    obtain ⟨ks, hks⟩ := ih (exec (generate T v) g).2
    exact ⟨ls ++ ks, .cons hls rfl hks⟩

/-- **Labels never repeat.**  A generator with serial labels, used for any trees one after the
other, makes labels that are all different; none of them is the label of the main part or the name
of an instruction. -/
theorem labels_never_repeat {T : Target} (hT : T ∈ [assembly, retro11, parable]) (g : Gen)
    (vs : List Value) : (∃ ls, History T g vs ls) ∧
      ∀ ls, History T g vs ls → ls.Nodup ∧ "main" ∉ ls ∧ ∀ l ∈ ls, Opcode.ofName? l = none := by
  have hlabel : T.label = serialLabel := by
    simp only [List.mem_cons, List.not_mem_nil, or_false] at hT
    rcases hT with rfl | rfl | rfl <;> rfl
  refine ⟨exists_history T vs g, fun ls h => ?_⟩
  obtain ⟨m, hm⟩ := h.counted hlabel
  refine ⟨hm.fresh.nodup, fun hmain => ?_, fun l hl => ?_⟩
  · obtain ⟨hint, k, -, -, hk⟩ := hm.fresh.serial _ hmain
    exact serialLabel_ne_main hint k hk.symm
  · obtain ⟨hint, k, -, -, rfl⟩ := hm.fresh.serial l hl
    exact ofName?_letter (by rw [toList_serialLabel]; rfl)

/-- a conditional and a loop without their parts: the generator fails in each after making its
labels -/
theorem labels_never_repeat_after_faults :
    (exec (generate assembly (.tuple [.str "IF"])) {}).1.isOk = false ∧
    History assembly {} [.tuple [.str "IF"], .tuple [.str "WHILE"]]
      ["t_if_false_1", "t_while_start_2", "t_while_end_3"] ∧
    ["t_if_false_1", "t_while_start_2", "t_while_end_3"].Nodup := by
  have hif : (rules assembly).run (.tuple [.str "IF"]) = ifRule assembly _ :=
    (run_tuple _ "IF" []).trans (apply_rule "if" _ ruleNames.ifThen rfl)
  have hwhile : (rules assembly).run (.tuple [.str "WHILE"]) = whileRule assembly _ :=
    (run_tuple _ "WHILE" []).trans (apply_rule "while" _ ruleNames.whileDo rfl)
  have hfirst : exec (generate assembly (.tuple [.str "IF"])) {} =
      (.error .outOfRange, { frames := [{}], labels := 1 }) := by
    unfold generate
    rw [hif]
    rfl
  have hone : Makes assembly (generate assembly (.tuple [.str "IF"])) {} ["t_if_false_1"] := by
    unfold generate
    rw [hif]
    exact .bind .openFrame rfl (.stop (.bind (.newLabel rfl) rfl (.stop (.throw _) rfl)) rfl)
  have htwo : Makes assembly (generate assembly (.tuple [.str "WHILE"]))
      { frames := [{}], labels := 1 } ["t_while_start_2", "t_while_end_3"] := by
    unfold generate
    rw [hwhile]
    refine .bind .openFrame rfl
      (.stop (.bind (.newLabel rfl) rfl (.bind (.newLabel rfl) rfl ?_)) rfl)
    exact .stop (.throw _) rfl
  have hhistory := History.cons hone hfirst (.cons htwo rfl .nil)
  refine ⟨?_, hhistory, ?_⟩
  · rw [hfirst]
    rfl
  · exact ((labels_never_repeat (by simp) {} _).2 _ hhistory).1

end Pl0Kit.Generator
