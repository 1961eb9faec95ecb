import Pl0Kit.Proofs.Dialogue
import Pl0Kit.Proofs.ParseLocal

/-!
# Parsing recorded tokens

A list of tokens can stand in for the text they come from: a parser sees no more of either than the
tokens it asks for.  The two runs are led by the same dialogue, and as long as both have the same
tokens before them the dialogue goes the same way (`Dialogue.run_agree`).  What may differ is what a
text knows besides its tokens, which is its label and, at its end, the place where the lexer stands.
-/

namespace Pl0Kit

open Act

/-- where a message says that something is missing -/
def placeText (line pos : Int) : String :=
  "[" ++ Text.intText line ++ ":" ++ Text.intText pos ++ "]"

def missingText (wanted : String) : Option (String × String) → String
  | none => ": Expected " ++ wanted ++ " but got " ++ "none"
  | some (kind, value) => ": Expected " ++ wanted ++ " but got " ++ kind ++ " (" ++ value ++ ")"

/-- How two runs end that stop before the token `sym`, or at the end: with the same value, with
reports of the same thing missing, or both in a look at a token where there is none.  The reports
are worded alike up to the labels of the texts, and when they are about the end up to the line and
offset there. -/
inductive Agree {α : Type} (label label' : String) :
    Option Token → Except Fault α → Except Fault α → Prop
  | value {sym : Option Token} (a : α) : Agree label label' sym (.ok a) (.ok a)
  | atToken {t : Token} {e e' : Fault} {rest : String} : e.IsSyntax → e'.IsSyntax →
      e.message = some (label ++ rest) → e'.message = some (label' ++ rest) →
        Agree label label' (some t) (.error e) (.error e')
  | atEnd {e e' : Fault} {line pos line' pos' : Int} {rest : String} : e.IsSyntax → e'.IsSyntax →
      e.message = some (label ++ (placeText line pos ++ rest)) →
        e'.message = some (label' ++ (placeText line' pos' ++ rest)) →
        Agree label label' none (.error e) (.error e')
  | noToken : Agree label label' none (.error .noSuchField) (.error .noSuchField)

section

variable {α : Type} {label label' : String} {c c' : Cursor} {s : Option Token}

theorem message_expected (source : String) (line pos : Int) (wanted : String)
    (got : Option (String × String)) : (Fault.expected (some source) line pos wanted got).message =
      some (source ++ (placeText line pos ++ missingText wanted got)) := by
  have hplace : "]: Expected " = "]" ++ ": Expected " := rfl
  unfold Fault.message Fault.expectedText placeText missingText
  rw [hplace]
  cases got <;> simp only [Option.getD_some, String.append_assoc]

/-- what is missing before the same token, or at the end of the same tokens, is reported alike -/
theorem agree_unexpected (hc : c.label = some label) (hc' : c'.label = some label')
    (hsym : c.sym = c'.sym) (wanted : String) :
    Agree label label' c'.sym (.error (Parse.unexpected c wanted) : Except Fault α)
      (.error (Parse.unexpected c' wanted)) := by
  unfold Parse.unexpected
  rw [hsym, hc, hc']
  cases c'.sym with
  | some t => exact .atToken trivial trivial (message_expected ..) (message_expected ..)
  | none => exact .atEnd trivial trivial (message_expected ..) (message_expected ..)

theorem Cursor.tokens_step_congr {t : Token} (h : c.tokens = c'.tokens) (hs : c.sym = some t) :
    c.step.tokens = c'.step.tokens := by
  have hs' : c'.sym = some t := by rw [c'.sym_eq, ← h, ← c.sym_eq, hs]
  rw [Cursor.tokens, Cursor.tokens, hs, hs'] at h
  rw [c.step_tokens, c'.step_tokens]
  exact (List.cons.inj h).2

/-- **A dialogue goes the same way before the same tokens.** -/
theorem Dialogue.run_agree (d : Dialogue α s) (hc : c.label = some label)
    (hc' : c'.label = some label') (hs : c.sym = s) (htokens : c.tokens = c'.tokens)
    (hd : (d.run c).1 ≠ .error .outOfFuel) :
    (d.run c).2.sym = (d.run c').2.sym ∧
      Agree label label' (d.run c').2.sym (d.run c).1 (d.run c').1 := by
  induction d generalizing c c' with
  | ask next ih =>
    have hstep := Cursor.tokens_step_congr htokens hs
    have hsym : c.step.sym = c'.step.sym := by rw [c.step.sym_eq, c'.step.sym_eq, hstep]
    unfold Dialogue.run at hd ⊢
    rw [← hsym]
    exact ih c.step.sym (c.label_step.trans hc) (c'.label_step.trans hc') rfl hstep hd
  | spent => exact absurd rfl hd
  | answer a =>
    have hsym : c.sym = c'.sym := by rw [c.sym_eq, c'.sym_eq, htokens]
    exact ⟨hsym, .value a⟩
  | missing wanted =>
    have hsym : c.sym = c'.sym := by rw [c.sym_eq, c'.sym_eq, htokens]
    exact ⟨hsym, agree_unexpected hc hc' hsym wanted⟩
  | noToken =>
    have hsym : c.sym = c'.sym := by rw [c.sym_eq, c'.sym_eq, htokens]
    refine ⟨hsym, ?_⟩
    show Agree label label' c'.sym _ _
    rw [← hsym, hs]
    exact .noToken

/-- **A parser sees only the tokens.**  Cursors with the same tokens before them may have them from
anywhere, with any lines and offsets: both runs stop before the same token, or both at the end, and
there they agree. -/
theorem Parse.complete_agree {ts : List Token} (hc : c.Has ts) (hc' : c'.Has ts)
    (hp : ∀ t ∈ ts, t.Proper) (hlabel : c.label = some label) (hlabel' : c'.label = some label') :
    (exec (complete program) c).2.sym = (exec (complete program) c').2.sym ∧
      Agree label label' (exec (complete program) c').2.sym (exec (complete program) c).1
        (exec (complete program) c').1 := by
  obtain ⟨n, hn⟩ : ∃ n, n = 3 * ts.length + 4 := ⟨_, rfl⟩
  obtain ⟨d, hd⟩ := (program_talks (Nat.le_refl n)).spoken c.sym trivial
  have hsym : c'.sym = c.sym := by rw [hc.sym, hc'.sym]
  have hrun : exec (complete program) c = d.run c :=
    (exec_complete_program hc hp hn.ge).trans (hd c hc.label rfl)
  have hrun' : exec (complete program) c' = d.run c' :=
    (exec_complete_program hc' hp hn.ge).trans (hd c' hc'.label hsym)
  have hlasts := program_not_spent hc hp hn.ge
  rw [hd c hc.label rfl] at hlasts
  rw [hrun, hrun']
  exact d.run_agree hlabel hlabel' rfl (hc.tokens.trans hc'.tokens.symm) hlasts

end

/-- **Parsing the recorded tokens of a text is parsing the text.**  Both stop before the same token,
or both at the end, and there they agree. -/
theorem parse_recorded (label s : String) :
    (parseTokens label (tokensOf s)).2.sym = (parseText s).2.sym ∧
      Agree label "<input>" (parseText s).2.sym (parseTokens label (tokensOf s)).1
        (parseText s).1 := by
  refine Parse.complete_agree (Cursor.replay_has label (tokensOf s)) (Cursor.input_has s)
    (proper_tokensOf s) ?_ ?_
  · rw [Cursor.replay, Cursor.label_step]
  · rw [Cursor.input, Cursor.label_step]

end Pl0Kit
