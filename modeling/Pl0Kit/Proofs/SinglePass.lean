import Mathlib.Data.List.Infix
import Pl0Kit.Proofs.Coverage
import Pl0Kit.Proofs.Dialogue
import Pl0Kit.Proofs.SyntaxErrors

/-!
# Parsing in one pass

A parser that is given a text asks a lexer for the first token, and from then on leads a dialogue
with that lexer. A `Session` keeps what the lexer answered, so that the requests can be counted:

* `Dialogue.converse`  a dialogue in which a lexer answers;
* `listen`             the same from the first request on.

`parser_reads_once` is the result: whatever the text is, parsing ends, it asks for the tokens of the
text in order and for none of them twice, and it asks no more once there are none.
-/

namespace Pl0Kit

open Act

/-! ## sessions -/

/-- what a lexer answered, what came of it, and the lexer afterwards -/
structure Session (α : Type) where
  answers : List Reading
  outcome : Except Fault α
  lexer : Lexer

def Session.request {α : Type} (l : Lexer) (rest : Option Token → Lexer → Session α) : Session α :=
  match l.read with
  | (.ok r, l') => { rest r.token l' with answers := r :: (rest r.token l').answers }
  | (.error e, l') => ⟨[], .error e, l'⟩

def textLabel : String := "<input>"

/-- a dialogue in which a lexer answers -/
def Dialogue.converse {α : Type} {s : Option Token} : Dialogue α s → Lexer → Session α
  | answer a, l => ⟨[], .ok a, l⟩
  | missing wanted, l =>
    let here : Cursor := { sym := s, line := l.line, pos := l.pos, label := some textLabel }
    ⟨[], .error (Parse.unexpected here wanted), l⟩
  | spent, l => ⟨[], .error .outOfFuel, l⟩
  | noToken, l => ⟨[], .error .noSuchField, l⟩
  | ask next, l => Session.request l fun s' l' => (next s').converse l'

def listen {α : Type} (talk : (s : Option Token) → Dialogue α s) (l : Lexer) : Session α :=
  Session.request l fun s l' => (talk s).converse l'

/-! ## what a lexer will answer -/

theorem Lexer.read_ok {l l' : Lexer} {r : Reading} (h : l.read = (.ok r, l')) :
    l'.line = r.line ∧ l'.pos = r.pos := by
  unfold Lexer.read at h
  split at h
  · cases h
  · split at h
    · split at h <;> cases h
      exact ⟨rfl, rfl⟩
    · split at h <;> cases h <;> exact ⟨rfl, rfl⟩

theorem Asked.isSome_token {l l' : Lexer} {rs : List Reading} (h : Asked l rs l') :
    ∀ r ∈ rs.dropLast, r.token.isSome := by
  induction h with
  | last =>
    intro r hr
    cases hr
  | @next _ _ _ r rs _ hr hrs ih =>
    intro r' hr'
    have hne : rs ≠ [] := by cases hrs <;> exact List.cons_ne_nil _ _
    rw [List.dropLast_cons_of_ne_nil hne] at hr'
    rcases List.mem_cons.1 hr' with rfl | hr'
    · exact hr
    · exact ih r' hr'

/-- the pieces of a text that have a token stand one after the other -/
theorem Pieces.increasing {ps : List Piece} : ∀ {before : List Char}, Pieces before ps →
    (∀ t ∈ ps.filterMap Piece.token?, (before.length : Int) ≤ t.pos) ∧
      (ps.filterMap Piece.token?).Pairwise fun t u => t.pos < u.pos := by
  induction ps with
  | nil => exact fun _ => ⟨fun t ht => (List.not_mem_nil ht).elim, .nil⟩
  | cons p ps ih =>
    intro before h
    have hfits : p.FitsAt before ((p :: ps).flatMap Piece.text) := by
      simpa using h [] p ps rfl
    have hrest : Pieces (before ++ p.text) ps := by
      intro pre q post hps
      have hq := h (p :: pre) q post (congrArg (p :: ·) hps)
      rwa [List.flatMap_cons, ← List.append_assoc] at hq
    obtain ⟨hle, hpairs⟩ := ih hrest
    rw [List.length_append] at hle
    cases p with
    | token t cs =>
      obtain ⟨hspells, -, hpos, -⟩ := hfits
      have hcs : 0 < cs.length := by
        refine List.length_pos_iff.2 fun hnil => ?_
        subst hnil
        exact hspells.ne_nil
      have hlt : ∀ u ∈ ps.filterMap Piece.token?, t.pos < u.pos := by
        intro u hu
        have hu := hle u hu
        rw [Piece.text] at hu
        omega
      refine ⟨fun u hu => ?_, hpairs.cons hlt⟩
      rcases List.mem_cons.1 hu with rfl | hu
      · exact hpos.ge
      · exact hpos.ge.trans (hlt u hu).le
    | blank | newlines | comment | illegal =>
      refine ⟨fun u hu => ?_, hpairs⟩
      have hu := hle u hu
      omega

theorem tokensOf_increasing (s : String) : (tokensOf s).Pairwise fun t u => t.pos < u.pos := by
  obtain ⟨ps, -, hps, htokens, -⟩ := exists_pieces s.toList []
  have hpieces : tokensOf s = ps.filterMap Piece.token? := by
    rw [tokensOf, readText, filterMap_readings]
    exact htokens
  rw [hpieces]
  exact hps.increasing.2

/-! ## dialogues with a lexer and with a cursor -/

section

variable {α : Type} {s : Option Token} {c : Cursor} {l l' : Lexer}

/-- the cursor stands where the lexer does, and before a token it holds what the lexer will
answer -/
structure Cursor.Follows (c : Cursor) (l : Lexer) : Prop where
  label : c.label = some textLabel
  line : c.line = l.line
  pos : c.pos = l.pos
  ahead : c.sym.isSome → ∃ l', Asked l c.ahead l'

/-- a session comes to what a run from the cursor comes to, and takes the readings that the run
takes -/
structure Session.Matches (x : Session α) (ahead : List Reading) (r : Except Fault α × Cursor) :
    Prop where
  outcome : x.outcome = r.1
  answers : x.answers ++ r.2.ahead = ahead
  line : x.lexer.line = r.2.line
  pos : x.lexer.pos = r.2.pos

/-- the next reading is the answer to the next request -/
theorem Cursor.step_follows (hlabel : c.label = some textLabel) (h : Asked l c.ahead l') :
    ∃ r l', l.read = (.ok r, l') ∧ c.ahead = r :: c.step.ahead ∧ c.step.sym = r.token ∧
      c.step.Follows l' := by
  unfold Cursor.step
  generalize c.ahead = rs at h ⊢
  cases h with
  | @last _ l' r hread hr =>
    obtain ⟨hline, hpos⟩ := Lexer.read_ok hread
    refine ⟨r, l', hread, rfl, rfl, hlabel, hline.symm, hpos.symm, fun hsome => ?_⟩
    have htoken : r.token.isSome := hsome
    rw [hr] at htoken
    cases htoken
  | @next _ l₂ _ r rs hread hr hrs =>
    obtain ⟨hline, hpos⟩ := Lexer.read_ok hread
    exact ⟨r, l₂, hread, rfl, rfl, hlabel, hline.symm, hpos.symm, fun _ => ⟨l', hrs⟩⟩

theorem Session.Matches.request {next : Option Token → Lexer → Session α} {r : Reading}
    {ahead : List Reading} {out : Except Fault α × Cursor} (hread : l.read = (.ok r, l'))
    (h : (next r.token l').Matches ahead out) :
    (Session.request l next).Matches (r :: ahead) out := by
  have hrequest : Session.request l next =
      { next r.token l' with answers := r :: (next r.token l').answers } := by
    unfold Session.request
    rw [hread]
  rw [hrequest]
  exact ⟨h.outcome, congrArg (r :: ·) h.answers, h.line, h.pos⟩

/-- **A dialogue with a lexer takes the same course as with a cursor that stands where the lexer
does.** -/
theorem Dialogue.converse_matches (d : Dialogue α s) (h : c.Follows l) (hs : c.sym = s) :
    (d.converse l).Matches c.ahead (d.run c) := by
  induction d generalizing c l with
  | answer | spent | noToken => exact ⟨rfl, rfl, h.line.symm, h.pos.symm⟩
  | missing wanted =>
    refine ⟨?_, rfl, h.line.symm, h.pos.symm⟩
    show Except.error _ = Except.error _
    unfold Parse.unexpected
    rw [hs, h.label, h.line, h.pos]
  | @ask t next ih =>
    obtain ⟨l₂, hasked⟩ := h.ahead (by rw [hs]; rfl)
    obtain ⟨r, l', hread, hahead, hsym, hfollows⟩ := Cursor.step_follows h.label hasked
    have hrest := ih r.token hfollows hsym
    rw [hahead]
    unfold Dialogue.converse Dialogue.run
    rw [hsym]
    exact .request hread hrest

theorem listen_matches (talk : (s : Option Token) → Dialogue α s) (s : String) :
    (listen talk (({} : Lexer).input s)).Matches (readText 1 s.toList)
      ((talk (({} : Cursor).input s).sym).run (({} : Cursor).input s)) := by
  obtain ⟨l', hasked, -⟩ := asked_readings 1 [] s.toList
  let start : Cursor := { ahead := readText 1 s.toList, label := some textLabel }
  obtain ⟨r, l₂, hread, hahead, hsym, hfollows⟩ :=
    Cursor.step_follows (c := start) (l := ({} : Lexer).input s) rfl hasked
  have hmatches := (talk r.token).converse_matches hfollows hsym
  have hlisten : (listen talk (({} : Lexer).input s)).Matches (r :: start.step.ahead)
      ((talk r.token).run start.step) := .request hread hmatches
  rw [← hahead, ← hsym] at hlisten
  exact hlisten

end

/-! ## the parser -/

/-- a session that reads the text `s` once: it ends as a parse of the text does, and not because a
budget is used up; it takes readings of the text from the first one on, finds the tokens at growing
offsets, and makes no request after one that found no token -/
structure Session.OnePass (x : Session Program) (s : String) : Prop where
  outcome : x.outcome = (parseText s).1
  ends : x.outcome ≠ .error .outOfFuel
  inOrder : x.answers ++ (parseText s).2.ahead = readText 1 s.toList
  once : (x.answers.filterMap Reading.token).Pairwise fun t u => t.pos < u.pos
  stops : ∀ r ∈ x.answers.dropLast, r.token.isSome
  line : x.lexer.line = (parseText s).2.line
  pos : x.lexer.pos = (parseText s).2.pos

/-- parsing a text needs a budget of three nested calls for each token -/
theorem parseText_budget (s : String) {n : Nat} (hn : 3 * (tokensOf s).length + 4 ≤ n) :
    parseText s = exec (Parse.program n) (({} : Cursor).input s) :=
  Parse.exec_complete_program (Cursor.input_has s) (proper_tokensOf s) hn

theorem Session.Matches.onePass {x : Session Program} {s : String}
    (h : x.Matches (readText 1 s.toList) (parseText s)) : x.OnePass s := by
  obtain ⟨l, hasked, -⟩ := asked_readings 1 [] s.toList
  have hstops := hasked.isSome_token
  have htokens := tokensOf_increasing s
  rw [tokensOf, ← h.answers, List.filterMap_append] at htokens
  refine ⟨h.outcome, ?_, h.answers, (List.pairwise_append.1 htokens).1, fun r hr => ?_,
    h.line, h.pos⟩
  · rw [h.outcome, parseText_budget s (Nat.le_refl _)]
    exact Parse.program_not_spent (Cursor.input_has s) (proper_tokensOf s) (Nat.le_refl _)
  · refine hstops r ?_
    rw [show readings 1 ([] : List Char).length (lexemes s.toList) =
      x.answers ++ (parseText s).2.ahead from h.answers.symm]
    cases hahead : (parseText s).2.ahead with
    | nil => rwa [List.append_nil]
    | cons r' rest =>
      rw [List.dropLast_append_of_ne_nil (List.cons_ne_nil _ _)]
      exact List.mem_append_left _ (List.mem_of_mem_dropLast hr)

/-- **Parsing is a dialogue that passes over the text once.**  With every budget, what the parser
does is decided by the tokens that it asked for; and with every budget from the one for the tokens
of a text on, asking a lexer for that text is one pass. -/
theorem parser_reads_once : ∃ talk : Nat → (s : Option Token) → Dialogue Program s,
    (∀ (n : Nat) (c : Cursor), c.label.isSome → exec (Parse.program n) c = (talk n c.sym).run c) ∧
    ∀ (s : String) (k : Nat),
      (listen (talk (3 * (tokensOf s).length + 4 + k)) (({} : Lexer).input s)).OnePass s := by
  choose talk htalk using fun n s => (Parse.program_talks (Nat.le_refl n)).spoken s trivial
  refine ⟨talk, fun n c hc => htalk n c.sym c hc rfl, fun s k => Session.Matches.onePass ?_⟩
  have hc := Cursor.input_has s
  rw [parseText_budget s (Nat.le_add_right _ k), htalk _ _ _ hc.label rfl]
  exact listen_matches _ s

end Pl0Kit
