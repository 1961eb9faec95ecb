import Pl0Kit.Proofs.Declarations
import Pl0Kit.Proofs.ForthText

/-!
# Words of the Forth dialects

Retro 11, Retro 12 and Parable are read word by word.  What an event writes is empty or ends in a
blank, so the words of a text are those of its events (`words_render`).  Labels and numbers are
single words, and what a statement writes consists of ordinary words and the brackets of its loops
and conditionals.

* `Ordinary w`          a word that neither opens nor closes anything and defines no name;
* `OneWord l`           a label that is an ordinary word;
* `Event.Ordinary`      an event that writes ordinary words only;
* `ProgramCode.written` the bodies of a program are written where all labels in scope are such
  words.
-/

namespace Pl0Kit.Text

/-! ## texts that end in a blank -/

/-- an empty text, or one that is set off from what follows by a blank -/
def EndsBlank (t : String) : Prop := t.toList.getLast?.all isBlank = true

instance (t : String) : Decidable (EndsBlank t) := inferInstanceAs (Decidable (_ = true))

theorem endsBlank_append (u : String) (h : u.toList.getLast?.any isBlank = true) (t : String) :
    EndsBlank (t ++ u) := by
  cases hlast : u.toList.getLast? with
  | none =>
    rw [hlast] at h
    cases h
  | some b =>
    rw [hlast] at h
    rw [EndsBlank, String.toList_append, List.getLast?_append, hlast]
    exact h

theorem words_append {t : String} (h : EndsBlank t) (u : String) :
    words (t ++ u) = words t ++ words u := by
  rw [words, words, words, String.toList_append, ← List.map_append]
  rcases List.eq_nil_or_concat t.toList with ht | ⟨a, b, ht⟩
  · rw [ht]
    rfl
  · have hb : isBlank b = true := by
      rw [EndsBlank, ht, List.concat_eq_append, List.getLast?_concat] at h
      exact h
    rw [ht, List.concat_eq_append, List.append_assoc, List.singleton_append, wordsOf_blank hb,
      wordsOf_blank hb]
    simp [wordsOf, wordsFrom]

theorem Solid.marked {mark w : String} (hmark : mark.toList.all (fun c => !isBlank c) = true)
    (h : Solid w) : Solid (mark ++ w) := by
  refine ⟨?_, ?_⟩
  · rw [String.toList_append]
    exact List.append_ne_nil_of_right_ne_nil _ h.1
  · rw [String.toList_append]
    refine List.forall_mem_append.2 ⟨fun c hc => ?_, h.2⟩
    simpa using List.all_eq_true.1 hmark c hc

/-- a word between two texts, with a mark in front of it -/
theorem words_marked {lead mark w tail : String} (hlead : EndsBlank lead) (hw : Solid (mark ++ w))
    (htail : tail.toList.head?.any isBlank = true) :
    words (lead ++ mark ++ w ++ tail) = words lead ++ (mark ++ w) :: words tail := by
  rw [String.append_assoc, String.append_assoc, words_append hlead, ← String.append_assoc]
  refine congrArg _ ?_
  cases ht : tail.toList with
  | nil =>
    rw [ht] at htail
    cases htail
  | cons b rest =>
    rw [ht] at htail
    have hwords := wordsOf_eq hw.words
    have hb : isBlank b = true := htail
    have hrest : wordsOf (b :: rest) = wordsOf rest := wordsOf_blank hb [] rest
    rw [words, String.toList_append, ht, wordsOf_blank hb, hwords, words, ht, hrest]
    simp

end Pl0Kit.Text

namespace Pl0Kit.Generator

open Text

/-! ## ordinary words -/

/-- a word that neither opens nor closes anything and defines no name -/
def Ordinary (w : String) : Prop :=
  w ∉ ["if", "then"] ∧ w.toList.head?.all (fun c => c ∉ "[]':".toList) = true

instance (w : String) : Decidable (Ordinary w) := inferInstanceAs (Decidable (_ ∧ _))

theorem Ordinary.of_head {w : String} {c : Char} {cs : List Char} (h : w.toList = c :: cs)
    (hc : c ∉ "it[]':".toList) : Ordinary w := by
  have hmarks : "it[]':".toList = 'i' :: 't' :: "[]':".toList := rfl
  rw [hmarks, List.mem_cons, List.mem_cons, not_or, not_or] at hc
  refine ⟨fun hw => ?_, ?_⟩
  · rcases List.mem_pair.1 hw with rfl | rfl
    · exact hc.1 (List.cons.inj h).1.symm
    · exact hc.2.1 (List.cons.inj h).1.symm
  · rw [h]
    exact decide_eq_true hc.2.2

/-- a text that is one ordinary word -/
def OneWord (w : String) : Prop := Solid w ∧ Ordinary w

-- the characters of the word are gone through, not all the characters that there are
instance (w : String) : Decidable (OneWord w) :=
  haveI : Decidable (Solid w) := @instDecidableAnd _ _ _ (List.decidableBAll _ _)
  inferInstanceAs (Decidable (_ ∧ _))

/-- what may stand in front of a word -/
def Mark (mark : String) : Prop := ∀ c ∈ mark.toList, isBlank c = false ∧ c ∉ "it[]':".toList

instance (mark : String) : Decidable (Mark mark) := List.decidableBAll _ _

theorem OneWord.marked {mark w : String} (hmark : Mark mark) (h : OneWord w) :
    OneWord (mark ++ w) := by
  refine ⟨⟨?_, ?_⟩, ?_⟩
  · rw [String.toList_append]
    exact List.append_ne_nil_of_right_ne_nil _ h.1.1
  · rw [String.toList_append]
    exact List.forall_mem_append.2 ⟨fun c hc => (hmark c hc).1, h.1.2⟩
  · cases hm : mark.toList with
    | nil =>
      obtain rfl : mark = "" := String.ext hm
      rw [String.empty_append]
      exact h.2
    | cons c cs =>
      have hw : (mark ++ w).toList = c :: (cs ++ w.toList) := by
        rw [String.toList_append, hm, List.cons_append]
      exact .of_head hw (hmark c (hm ▸ List.mem_cons_self)).2

theorem oneWord_intText (n : Nat) : OneWord (intText n) := by
  refine ⟨Forth.solid_nat n, ?_⟩
  cases hd : Nat.toDigits 10 n with
  | nil => exact absurd hd Nat.toDigits_ne_nil
  | cons c cs =>
    have hc : c.isDigit = true := isDigit_of_mem_toDigits (n := n) (hd ▸ List.mem_cons_self)
    refine .of_head (by rw [toList_intText, hd]) fun hm => ?_
    have hnone : "it[]':".toList.any Char.isDigit = false := by decide
    exact List.any_eq_false.1 hnone c hm hc

theorem oneWord_serialLabel {hint : String} (h : ∀ c ∈ hint.toList, Lexeme.isNameChar c = true)
    (n : Nat) : OneWord (serialLabel hint n) := by
  have hplain := Serial.plain ⟨hint, n, h, rfl⟩
  have hhead : 't' ∉ "[]':".toList := by decide
  refine ⟨⟨hplain.1, fun c hc => (hplain.2 c hc).1⟩, fun hw => ?_, ?_⟩
  · rcases List.mem_pair.1 hw with hw | hw <;>
    · have hl := congrArg String.toList hw
      rw [toList_serialLabel] at hl
      cases hl
  · rw [toList_serialLabel]
    exact decide_eq_true hhead

theorem toList_label_retro12 (hint : String) (n : Nat) :
    (retro12.label hint n).toList = "PL0:".toList ++ (hint.toList ++ Nat.toDigits 10 n) := by
  simp [retro12]

theorem oneWord_label_retro12 {hint : String} (h : ∀ c ∈ hint.toList, isBlank c = false) (n : Nat) :
    OneWord (retro12.label hint n) := by
  have hlead : "PL0:".toList.any isBlank = false := by decide
  refine ⟨⟨?_, ?_⟩, .of_head (toList_label_retro12 hint n) (by decide)⟩
  · rw [toList_label_retro12]
    exact List.cons_ne_nil _ _
  · rw [toList_label_retro12]
    refine List.forall_mem_append.2
      ⟨by simpa using hlead, List.forall_mem_append.2 ⟨h, fun c hc => ?_⟩⟩
    exact (plain_of_isNameChar (isNameChar_of_isDigit (isDigit_of_mem_toDigits hc))).1

/-- the targets that are read word by word -/
def dialects : List Target := [retro11, retro12, parable]

theorem mem_dialects {T : Target} (h : T ∈ dialects) : T = retro11 ∨ T = retro12 ∨ T = parable := by
  simpa [dialects] using h

/-- a label with a hint of the target and an identifier -/
theorem oneWord_label {T : Target} (hT : T ∈ dialects) {x : String} (hx : Identifier x) (n : Nat)
    {hint : String} (hhint : hint = T.varHint ∨ hint = T.procHint) :
    OneWord (T.label (hint ++ x) n) := by
  have hname := nameChars_of_identifier hx
  have happ : ∀ {P : Char → Prop}, (∀ c ∈ hint.toList, P c) → (∀ c ∈ x.toList, P c) →
      ∀ c ∈ (hint ++ x).toList, P c := by
    intro P hc hx
    rw [String.toList_append]
    exact List.forall_mem_append.2 ⟨hc, hx⟩
  rcases mem_dialects hT with rfl | rfl | rfl
  · refine oneWord_serialLabel (happ ?_ hname) n
    rcases hhint with rfl | rfl <;> exact List.all_eq_true.1 (by decide)
  · have hblank : hint.toList.any isBlank = false := by rcases hhint with rfl | rfl <;> decide
    exact oneWord_label_retro12
      (happ (by simpa using hblank) fun c hc => (plain_of_isNameChar (hname c hc)).1) n
  · refine oneWord_serialLabel (happ ?_ hname) n
    rcases hhint with rfl | rfl <;> exact List.all_eq_true.1 (by decide)

/-! ## events -/

theorem endsBlank_text {T : Target} (hT : T ∈ dialects) (e : Event) : EndsBlank (T.text e) := by
  rcases mem_dialects hT with rfl | rfl | rfl
  · cases e with
    | cell _ | compare _ | save _ | call _ | number _ | load _ | constant _ =>
      exact endsBlank_append "\n" (by decide) _
    | procHead _ => exact endsBlank_append " )\n" (by decide) _
    | procOpen _ => exact endsBlank_append " \n" (by decide) _
    | _ =>
      dsimp only [retro11]
      decide
  · cases e with
    | compare _ | save _ | call _ | number _ | load _ => exact endsBlank_append " " (by decide) _
    | constant _ => exact endsBlank_append " (b) " (by decide) _
    | cell _ => exact endsBlank_append " var\n" (by decide) _
    | procHead _ => exact endsBlank_append "\n\n````\n" (by decide) _
    | procOpen _ => exact endsBlank_append "\n" (by decide) _
    | _ =>
      dsimp only [retro12]
      decide
  · cases e with
    | compare _ | save _ | call _ | number _ | load _ | constant _ =>
      exact endsBlank_append "\n" (by decide) _
    | cell _ => exact endsBlank_append "' var\n" (by decide) _
    | procHead _ => exact endsBlank_append "\"\n" (by decide) _
    | procOpen _ => exact endsBlank_append "' :\n[\n" (by decide) _
    | procClose _ => exact endsBlank_append "' :\n" (by decide) _
    | _ =>
      dsimp only [parable]
      decide

/-- the words of a text are those of its events -/
theorem words_render {T : Target} (hT : T ∈ dialects) (es : List Event) :
    words (render T es) = es.flatMap fun e => words (T.text e) := by
  induction es with
  | nil => rfl
  | cons e es ih =>
    rw [List.flatMap_cons, ← ih, ← words_append (endsBlank_text hT e)]
    simp [render, String.join_cons]

/-- an event that writes ordinary words only -/
def Event.Ordinary (T : Target) (e : Event) : Prop := ∀ w ∈ words (T.text e), Generator.Ordinary w

instance (T : Target) (e : Event) : Decidable (e.Ordinary T) :=
  inferInstanceAs (Decidable (∀ w ∈ words (T.text e), _))

/-- what stands before and behind a word leaves it alone and has ordinary words only -/
def Around (lead tail : String) : Prop :=
  EndsBlank lead ∧ tail.toList.head?.any isBlank = true ∧ ∀ w ∈ words lead ++ words tail, Ordinary w

instance (lead tail : String) : Decidable (Around lead tail) :=
  inferInstanceAs (Decidable (_ ∧ _ ∧ _))

theorem ordinary_around (lead mark tail : String) {w t : String} (h : Around lead tail)
    (hmark : Mark mark) (hw : OneWord w) (ht : t = lead ++ mark ++ w ++ tail) :
    ∀ v ∈ words t, Ordinary v := by
  obtain ⟨hlead, htail, hwords⟩ := h
  have hmarked := hw.marked hmark
  obtain ⟨hbefore, hbehind⟩ := List.forall_mem_append.1 hwords
  rw [ht, words_marked hlead hmarked.1 htail]
  exact List.forall_mem_append.2 ⟨hbefore, List.forall_mem_cons.2 ⟨hmarked.2, hbehind⟩⟩

/-- an event for a single operation, with the word that it names -/
def Event.Simple : Event → Prop
  | .load t | .save t | .call t | .number t | .constant t | .compare t => OneWord t
  | .mul | .add | .sub | .negate | .print | .odd => True
  | _ => False

theorem Event.Simple.ordinary {T : Target} (hT : T ∈ dialects) {e : Event} (h : e.Simple) :
    e.Ordinary T := by
  rcases mem_dialects hT with rfl | rfl | rfl
  · cases e with
    | load l => exact ordinary_around " " "@" "\n" (by decide) (by decide) h rfl
    | save l => exact ordinary_around " " "!" "\n" (by decide) (by decide) h rfl
    | call l => exact ordinary_around " ( call ) " "" "\n" (by decide) (by decide) h rfl
    | number t => exact ordinary_around " " "#" "\n" (by decide) (by decide) h rfl
    | constant t | compare t =>
      exact ordinary_around " " "" "\n" (by decide) (by decide) h rfl
    | mul | add | sub | negate | print | odd => decide
    | _ => exact h.elim
  · cases e with
    | load l => exact ordinary_around "" "@" " " (by decide) (by decide) h rfl
    | save l => exact ordinary_around "" "!" " " (by decide) (by decide) h rfl
    | call l | compare l => exact ordinary_around "" "" " " (by decide) (by decide) h rfl
    | number t => exact ordinary_around "" "#" " " (by decide) (by decide) h rfl
    | constant t =>
      exact ordinary_around "(a) " "#" " (b) " (by decide) (by decide) h rfl
    | mul | add | sub | negate | print | odd => decide
    | _ => exact h.elim
  · cases e with
    | load l => exact ordinary_around " " "@" "\n" (by decide) (by decide) h rfl
    | save l => exact ordinary_around " " "!" "\n" (by decide) (by decide) h rfl
    | call l => exact ordinary_around " " "|" "\n" (by decide) (by decide) h rfl
    | number t => exact ordinary_around " " "#" "\n" (by decide) (by decide) h rfl
    | constant t | compare t =>
      exact ordinary_around " " "" "\n" (by decide) (by decide) h rfl
    | mul | add | sub | negate | print | odd => decide
    | _ => exact h.elim

/-! ## statements -/

theorem mem_of_lookup {k t : String} {ws : List (String × String)} (h : ws.lookup k = some t) :
    (k, t) ∈ ws := by
  induction ws with
  | nil => cases h
  | cons e ws ih =>
    obtain ⟨a, b⟩ := e
    rw [List.lookup_cons] at h
    split at h
    · rename_i hk
      cases h
      rw [eq_of_beq hk]
      exact List.mem_cons_self
    · exact List.mem_cons_of_mem _ (ih h)

theorem mem_of_relationIn {ws : List (String × String)} {k t : String}
    (h : relationIn ws (.str k) = .ok t) : (k, t) ∈ ws := by
  rw [relationIn] at h
  split at h
  · rename_i hk
    cases h
    exact mem_of_lookup hk
  · cases h

theorem oneWord_relation {T : Target} (hT : T ∈ dialects) {k t : String}
    (h : T.relation (.str k) = .ok t) : OneWord t := by
  have hforth : ∀ e ∈ forthRelations, OneWord e.2 := by decide
  have hword : ∀ e ∈ wordRelations, OneWord e.2 := by decide
  rcases mem_dialects hT with rfl | rfl | rfl
  · exact hforth _ (mem_of_relationIn h)
  · exact hword _ (mem_of_relationIn h)
  · exact hword _ (mem_of_relationIn h)

/-- an event for a loop or a conditional -/
def Event.Bracket : Event → Prop
  | .loopOpen _ _ | .loopExit _ _ | .loopClose _ _ | .branch _ | .join _ => True
  | _ => False

theorem testLast {T : Target} (hT : T ∈ dialects) : ¬ T.testFirst = true := by
  rcases mem_dialects hT with rfl | rfl | rfl <;> decide

section Statements

variable {T : Target} (hT : T ∈ dialects) {fs : Frames} (hfs : ∀ f ∈ fs, Scoped OneWord OneWord f)

theorem Event.Sound.simple {e : Event} (h : e.Sound OneWord OneWord) (hc : e.Computes) :
    e.Simple := by
  cases e with
  | load l => exact h
  | number t | constant t =>
    obtain ⟨n, rfl⟩ := h
    exact oneWord_intText n
  | compare w =>
    obtain ⟨op, rfl⟩ := h
    have hword : OneWord op.word := by cases op <;> decide
    exact hword
  | mul | add | sub | negate => trivial
  | odd => exact h.elim
  | _ => exact hc.elim

include hfs

theorem ExprCode.simple {e : Expr} {es : List Event} (h : ExprCode fs e es) :
    ∀ ev ∈ es, ev.Simple :=
  fun ev hev => (h.sound hfs ev hev).simple (h.event ev hev)

include hT

theorem ConditionCode.simple {c : Condition} {es : List Event} (h : ConditionCode T fs c es) :
    ∀ ev ∈ es, ev.Simple := by
  cases h with
  | odd he =>
    refine List.forall_mem_append.2 ⟨he.simple hfs, ?_⟩
    rw [oddEvents]
    split
    · exact List.forall_mem_singleton.2 trivial
    · exact List.forall_mem_nil _
  | compare hl hr hw =>
    exact List.forall_mem_append.2 ⟨hl.simple hfs, List.forall_mem_append.2 ⟨hr.simple hfs,
      List.forall_mem_singleton.2 (oneWord_relation hT hw)⟩⟩

end Statements

variable {T : Target} {fs : Frames}

mutual

/-- the events of a statement are single operations and the brackets of loops and conditionals -/
theorem StatementCode.events (hT : T ∈ dialects) (hfs : ∀ f ∈ fs, Scoped OneWord OneWord f) :
    ∀ {n m : Nat} {s : Statement} {es : List Event}, StatementCode T fs n s m es →
      ∀ ev ∈ es, ev.Simple ∨ ev.Bracket
  | _, _, _, _, .assign he hf => by
    obtain ⟨l, rfl, hl⟩ := Scoped.find_var hfs hf
    exact List.forall_mem_append.2 ⟨fun ev hev => .inl (he.simple hfs ev hev),
      List.forall_mem_singleton.2 (.inl hl)⟩
  | _, _, _, _, .call hf => by
    obtain ⟨l, rfl, hl⟩ := Scoped.find_proc hfs hf
    exact List.forall_mem_singleton.2 (.inl hl)
  | _, _, _, _, .block hs => hs.events hT hfs
  | _, _, _, _, .ifThen hc hs =>
    List.forall_mem_append.2 ⟨fun ev hev => .inl (hc.simple hT hfs ev hev),
      List.forall_mem_cons.2 ⟨.inr trivial, List.forall_mem_append.2 ⟨hs.events hT hfs,
        List.forall_mem_singleton.2 (.inr trivial)⟩⟩⟩
  | _, _, _, _, .whileDo _ _ hc hs => by
    refine List.forall_mem_cons.2 ⟨.inr trivial, List.forall_mem_append.2 ⟨?_,
      List.forall_mem_singleton.2 (.inr trivial)⟩⟩
    rw [loopEvents, if_neg (testLast hT)]
    exact List.forall_mem_append.2 ⟨hs.events hT hfs, fun ev hev => .inl (hc.simple hT hfs ev hev)⟩
  | _, _, _, _, .print he =>
    List.forall_mem_append.2 ⟨fun ev hev => .inl (he.simple hfs ev hev),
      List.forall_mem_singleton.2 (.inl trivial)⟩

theorem StatementsCode.events (hT : T ∈ dialects) (hfs : ∀ f ∈ fs, Scoped OneWord OneWord f) :
    ∀ {n m : Nat} {ss : List Statement} {es : List Event}, StatementsCode T fs n ss m es →
      ∀ ev ∈ es, ev.Simple ∨ ev.Bracket
  | _, _, _, _, .nil => List.forall_mem_nil _
  | _, _, _, _, .cons hs hr => List.forall_mem_append.2 ⟨hs.events hT hfs, hr.events hT hfs⟩

end

/-! ## programs -/

theorem oneWord_cells {T : Target} (hT : T ∈ dialects) {xs : List String}
    (h : ∀ x ∈ xs, Identifier x) (n : Nat) : ∀ l, .cell l ∈ cellEvents T n xs → OneWord l := by
  induction xs generalizing n with
  | nil => exact fun l hl => absurd hl List.not_mem_nil
  | cons x xs ih =>
    obtain ⟨hx, hxs⟩ := List.forall_mem_cons.1 h
    intro l hl
    rcases List.mem_cons.1 hl with hl | hl
    · cases hl
      exact oneWord_label hT hx (n + 1) (.inl rfl)
    · exact ih hxs (n + 1) l hl

/-- an event between statements, with the names that it defines -/
def Event.Heading : Event → Prop
  | .cell l | .procOpen l | .procClose l => OneWord l
  | .procHead p => Identifier p
  | .start | .mainOpen | .mainClose => True
  | _ => False

/-- some of the events `es` are those of the statement `s`, in a scope of words -/
def Met (T : Target) (es : List Event) (s : Statement) : Prop :=
  ∃ fs n m cs, (∀ f ∈ fs, Scoped OneWord OneWord f) ∧ StatementCode T fs n s m cs ∧ cs <:+: es

theorem Met.mono {T : Target} {es ds : List Event} {s : Statement} (h : Met T es s)
    (hes : es <:+: ds) : Met T ds s := by
  obtain ⟨fs, n, m, cs, hfs, hs, hcs⟩ := h
  exact ⟨fs, n, m, cs, hfs, hs, hcs.trans hes⟩

/-- what is written for procedures or a program with the given bodies -/
structure Written (T : Target) (es : List Event) (bodies : List Statement) : Prop where
  events : ∀ e ∈ es, e.Simple ∨ e.Bracket ∨ e.Heading
  bodies : ∀ s ∈ bodies, Met T es s

theorem body_procParts (outer : Block) (n : Nat) (procs : List (String × Block)) :
    (procParts outer n procs).map Part.body = procs.map fun q => q.2.body := by
  induction procs generalizing n with
  | nil => rfl
  | cons q rest ih =>
    rw [procParts, List.map_cons, List.map_cons, ih]

section Programs

variable {T : Target} (hT : T ∈ dialects) {n m : Nat} {f f' : Frame} {es : List Event}

include hT

theorem heading_cells {xs : List String} (h : ∀ x ∈ xs, Identifier x) (n : Nat) :
    ∀ e ∈ cellEvents T n xs, e.Heading := by
  intro e he
  obtain ⟨l, rfl⟩ := eq_cell_of_mem he
  exact oneWord_cells hT h n l he

theorem ProcsCode.written {fs : Frames} {procs : List (String × Block)}
    (h : ProcsCode T fs n f procs m f' es) (hnames : NamedProcs procs)
    (hfs : ∀ g ∈ f :: fs, Scoped OneWord OneWord g) :
    Written T es (procs.map fun q => q.2.body) ∧ Scoped OneWord OneWord f' := by
  induction h with
  | nil => exact ⟨⟨List.forall_mem_nil _, List.forall_mem_nil _⟩, hfs _ List.mem_cons_self⟩
  | @cons n m k f f' p consts vars inner rest body cs ds g label hl hg hs _ ih =>
    have hp : Identifier p := hnames p (by simp [Block.procSymbols])
    have hvars : ∀ x ∈ vars.getD [], Identifier x := by
      intro x hx
      have hmem := mem_varsSymbols hx
      exact hnames x (by simp [Block.procSymbols, Block.symbols, hmem])
    have hrest : NamedProcs rest := fun x hx => hnames x (by simp [Block.procSymbols, hx])
    have hlabel : OneWord label := hl ▸ oneWord_label hT hp (n + 1) (.inr rfl)
    have hscope := Scoped.procedure hg hlabel consts (oneWord_cells hT hvars (n + 1)) hfs
    obtain ⟨hds, hf'⟩ := ih hrest (List.forall_mem_cons.1 hscope).2
    have hbody := hs.events hT hscope
    refine ⟨⟨?_, List.forall_mem_cons.2 ⟨?_, fun s hs => (hds.bodies s hs).mono ?_⟩⟩, hf'⟩
    · refine List.forall_mem_cons.2 ⟨.inr (.inr hp), List.forall_mem_append.2
        ⟨fun e he => .inr (.inr (heading_cells hT hvars _ e he)),
          List.forall_mem_cons.2 ⟨.inr (.inr hlabel), List.forall_mem_append.2
            ⟨fun e he => ?_, List.forall_mem_cons.2 ⟨.inr (.inr hlabel), hds.events⟩⟩⟩⟩⟩
      exact (hbody e he).imp_right .inl
    · refine ⟨_, _, _, cs, hscope, hs, .procHead p :: (cellEvents T (n + 1) (vars.getD []) ++
        [.procOpen label]), .procClose label :: ds, by simp⟩
    · exact ⟨.procHead p :: (cellEvents T (n + 1) (vars.getD []) ++ .procOpen label ::
        (cs ++ [.procClose label])), [], by simp⟩

theorem ProgramCode.written {p : Program} (h : ProgramCode T p m f es) (hp : p.Shaped) :
    Written T es (p.parts.map Part.body) := by
  cases h with
  | @mk k m f consts vars procs body cs ds hprocs hs =>
    have hvars : ∀ x ∈ vars.getD [], Identifier x := by
      intro x hx
      have hmem := mem_varsSymbols hx
      exact hp.names x (by simp [Program.symbols, Block.symbols, hmem])
    have hnames : NamedProcs procs := fun x hx =>
      hp.names x (by simp [Program.symbols, Block.symbols, hx])
    have hframe : Scoped OneWord OneWord (declared T 0 {} consts vars) :=
      Scoped.empty.declared consts (oneWord_cells hT hvars 0)
    obtain ⟨hcs, hf⟩ := hprocs.written hT hnames (List.forall_mem_singleton.2 hframe)
    have hscope := List.forall_mem_singleton.2 hf
    have hbody := hs.events hT hscope
    refine ⟨?_, ?_⟩
    · refine List.forall_mem_cons.2 ⟨.inr (.inr trivial), List.forall_mem_append.2
        ⟨fun e he => .inr (.inr (heading_cells hT hvars 0 e he)),
          List.forall_mem_append.2 ⟨hcs.events,
            List.forall_mem_cons.2 ⟨.inr (.inr trivial), List.forall_mem_append.2 ⟨fun e he => ?_,
            List.forall_mem_singleton.2 (.inr (.inr trivial))⟩⟩⟩⟩⟩
      exact (hbody e he).imp_right .inl
    · rw [Program.parts, List.map_append, body_procParts]
      refine List.forall_mem_append.2 ⟨fun s hs => (hcs.bodies s hs).mono ?_,
        List.forall_mem_singleton.2 ⟨_, _, _, ds, hscope, hs, ?_⟩⟩
      · exact ⟨.start :: cellEvents T 0 (vars.getD []), .mainOpen :: (ds ++ [.mainClose]), by simp⟩
      · exact ⟨.start :: (cellEvents T 0 (vars.getD []) ++ (cs ++ [.mainOpen])),
          [.mainClose], by simp⟩

end Programs

end Pl0Kit.Generator
