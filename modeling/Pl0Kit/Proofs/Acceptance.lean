import Pl0Kit.Proofs.Lexical
import Pl0Kit.Proofs.ParseComplete
import Pl0Kit.Proofs.ParsePhrases

/-!
# The parser accepts exactly its grammar

A parse answers a program exactly if some first part of the tokens is a phrase for it.  That part
and the program are unique, and the cursor stands at the token after it.  Both directions come from
the rule of programs: what it reads is a phrase (`Parse.program_reads`) and phrases are taken
(`Parse.program_takes`); the second one also gives uniqueness, since a parse has one outcome.
-/

namespace Pl0Kit

open Act

/-- a first part of some tokens that is a phrase for the program `p` -/
def Begins (ts used rest : List Token) (p : Program) : Prop :=
  ts = used ++ rest ∧ ProgramPhrase used p

/-- an outcome of parsing the tokens `ts` that agrees with the grammar -/
structure FollowsGrammar (ts : List Token) (r : Except Fault Program × Cursor) : Prop where
  /-- a program is answered exactly if a first part of the tokens is a phrase for it -/
  accepts : ∀ p, r.1 = .ok p ↔ ∃ used rest, Begins ts used rest p
  /-- the same for the tree that is made from the program -/
  tree : ∀ v, r.1.map Program.toValue = .ok v ↔
    ∃ used rest p, Begins ts used rest p ∧ v = p.toValue
  /-- no other first part is a phrase, nor is this one a phrase for another program -/
  unique : ∀ used rest p, Begins ts used rest p → ∀ used' rest' p', Begins ts used' rest' p' →
    used' = used ∧ rest' = rest ∧ p' = p
  /-- parsing stops at the token after the phrase, or at the end -/
  stops : ∀ used rest p, Begins ts used rest p → r.2.sym = rest.head?

namespace Parse

theorem exec_complete {α : Type} (rule : Nat → Parse α) (c : Cursor) :
    exec (complete rule) c = exec (rule c.budget) c := rfl

/-- the budget of a cursor suffices for every phrase among its tokens -/
theorem budget_le {c : Cursor} {ts used rest : List Token} (hc : c.Has ts)
    (h : ts = used ++ rest) : 3 * used.length ≤ c.budget := by
  have hs := c.length_tokens_le
  rw [hc.tokens, h, List.length_append] at hs
  rw [Cursor.budget]
  omega

theorem program_complete {c : Cursor} {ts used rest : List Token} {p : Program} (hc : c.Has ts)
    (h : Begins ts used rest p) :
    ∃ c', exec (complete program) c = (.ok p, c') ∧ c'.Has rest := by
  rw [exec_complete]
  refine program_takes h.2 (budget_le hc h.1) c ?_
  rw [← h.1]
  exact hc

theorem program_sound {c c' : Cursor} {ts : List Token} {p : Program} (hc : c.Has ts)
    (hp : ∀ t ∈ ts, t.Proper) (h : exec (complete program) c = (.ok p, c')) :
    ∃ used rest, Begins ts used rest p := by
  rw [exec_complete] at h
  obtain ⟨used, rest, hts, -, hphrase⟩ := program_reads _ hc hp h
  exact ⟨used, rest, hts, hphrase⟩

theorem program_unique {c : Cursor} {ts used rest used' rest' : List Token} {p p' : Program}
    (hc : c.Has ts) (h : Begins ts used rest p) (h' : Begins ts used' rest' p') :
    used' = used ∧ rest' = rest ∧ p' = p := by
  obtain ⟨c₁, he, hc₁⟩ := program_complete hc h
  obtain ⟨c₂, he', hc₂⟩ := program_complete hc h'
  rw [he] at he'
  cases he'
  have hrest : rest' = rest := by rw [← hc₂.tokens, ← hc₁.tokens]
  refine ⟨?_, hrest, rfl⟩
  have happ : used ++ rest = used' ++ rest := by rw [← h.1, h'.1, hrest]
  exact (List.append_cancel_right happ).symm

theorem followsGrammar {c : Cursor} {ts : List Token} (hc : c.Has ts)
    (hp : ∀ t ∈ ts, t.Proper) : FollowsGrammar ts (exec (complete program) c) := by
  have haccepts : ∀ p, (exec (complete program) c).1 = .ok p ↔
      ∃ used rest, Begins ts used rest p := by
    intro p
    constructor
    · intro h
      exact program_sound hc hp (Prod.ext h rfl)
    · rintro ⟨used, rest, h⟩
      obtain ⟨c', he, -⟩ := program_complete hc h
      rw [he]
  refine ⟨haccepts, fun v => ?_, fun used rest p h used' rest' p' h' => program_unique hc h h',
    fun used rest p h => ?_⟩
  · constructor
    · intro h
      cases hr : (exec (complete program) c).1 with
      | error e =>
        rw [hr] at h
        cases h
      | ok p =>
        rw [hr] at h
        cases h
        obtain ⟨used, rest, hb⟩ := (haccepts p).1 hr
        exact ⟨used, rest, p, hb, rfl⟩
    · rintro ⟨used, rest, p, hb, rfl⟩
      rw [(haccepts p).2 ⟨used, rest, hb⟩]
      rfl
  · obtain ⟨c', he, hc'⟩ := program_complete hc h
    rw [he]
    exact hc'.sym

end Parse

/-- **Parsing follows the grammar**, for every list of tokens and for the tokens of every text. -/
theorem parsing_follows_grammar :
    (∀ (label : String) (ts : List Token), (∀ t ∈ ts, t.Proper) →
      FollowsGrammar ts (parseTokens label ts)) ∧
    ∀ s : String, FollowsGrammar (tokensOf s) (parseText s) :=
  ⟨fun label ts hp => Parse.followsGrammar (Cursor.replay_has label ts) hp,
    fun s => Parse.followsGrammar (Cursor.input_has s) (proper_tokensOf s)⟩

/-- the tokens of `! 1 . !`: a program, and one token more -/
def printOne : List Token :=
  [⟨.print, .text "!", 1, 0⟩, ⟨.number, .number 1, 1, 2⟩, ⟨.dot, .text ".", 1, 4⟩,
    ⟨.print, .text "!", 1, 6⟩]

theorem printOne_phrase :
    Begins printOne (printOne.take 3) (printOne.drop 3)
      ⟨.mk none none [] (.print (.mk none (.mk (.number 1) []) []))⟩ :=
  ⟨rfl, @ProgramPhrase.mk ⟨.dot, .text ".", 1, 4⟩ (printOne.take 2) _ (.mk .absent .absent .nil
    (.print rfl (.mk .absent (.mk (.number ⟨rfl, rfl⟩) .nil) .nil))) rfl⟩

theorem printOne_follows_grammar :
    (∀ t ∈ printOne, t.Proper) ∧
      (parseTokens "<list>" printOne).1 =
        .ok ⟨.mk none none [] (.print (.mk none (.mk (.number 1) []) []))⟩ ∧
      (parseTokens "<list>" printOne).2.sym = some ⟨.print, .text "!", 1, 6⟩ := by
  have hp : ∀ t ∈ printOne, t.Proper := by
    simp [printOne, Token.Proper]
  have h := parsing_follows_grammar.1 "<list>" printOne hp
  exact ⟨hp, (h.accepts _).2 ⟨_, _, printOne_phrase⟩, h.stops _ _ _ printOne_phrase⟩

end Pl0Kit
