import Mathlib.Data.List.TakeWhile
import Pl0Kit.Machine.Assemble
import Pl0Kit.Proofs.Labels

/-!
# Assembly listings

The assembly text of a program is read line by line.  An `Item` is what one line of generated code
says, `Event.items` are the items of an event, and `asmLines_render` shows that the assembler reads
from the text of a program exactly its items.
-/

namespace Pl0Kit.Machine

/-- one line of generated assembly -/
inductive Item where
  | note
  | label (l : String)
  /-- one cell of storage -/
  | zero
  | op (o : Opcode)
  | opWord (o : Opcode) (w : String)
  deriving DecidableEq

def Item.line : Item → AsmLine
  | note => .nothing
  | label l => .label l.toList
  | zero => .words [['0']]
  | op o => .words [o.name.toList]
  | opWord o w => .words [o.name.toList, w.toList]

/-- what the lines of a text say -/
def asmLines (cs : List Char) : List AsmLine := (Text.newlineLines cs).map AsmLine.ofChars

/-! ## lines of a text -/

/-- characters without line ends that are read as an item -/
def Shows (cs : List Char) (x : Item) : Prop := '\n' ∉ cs ∧ AsmLine.ofChars (cs ++ ['\n']) = x.line

theorem newlineLinesFrom_append {cs : List Char} (h : '\n' ∉ cs) (cur rest : List Char) :
    Text.newlineLinesFrom cur (cs ++ '\n' :: rest) =
      (cur.reverse ++ (cs ++ ['\n'])) :: Text.newlineLinesFrom [] rest := by
  induction cs generalizing cur with
  | nil => simp [Text.newlineLinesFrom]
  | cons c cs ih =>
    have hc : c ≠ '\n' := fun he => h (he ▸ List.mem_cons_self)
    rw [List.cons_append, Text.newlineLinesFrom, ih fun hm => h (List.mem_cons_of_mem c hm)]
    · simp
    · intro he
      exact hc he

theorem Shows.asmLines {cs : List Char} {x : Item} (h : Shows cs x) (rest : List Char) :
    asmLines (cs ++ '\n' :: rest) = x.line :: asmLines rest := by
  rw [Machine.asmLines, Text.newlineLines, newlineLinesFrom_append h.1, List.map_cons,
    List.reverse_nil, List.nil_append, h.2]
  rfl

/-- a word that is neither split nor taken for a label or a comment -/
def Plain (w : List Char) : Prop :=
  w ≠ [] ∧ ∀ c ∈ w, Text.isBlank c = false ∧ c ≠ ':' ∧ c ≠ '#'

theorem plain_of_all {w : List Char} (hne : w ≠ [])
    (h : (w.all fun c => !Text.isBlank c && c != ':' && c != '#') = true) : Plain w := by
  refine ⟨hne, fun c hc => ?_⟩
  have hall := List.all_eq_true.1 h c hc
  simp only [Bool.and_eq_true, Bool.not_eq_true', bne_iff_ne] at hall
  exact ⟨hall.1.1, hall.1.2, hall.2⟩

theorem Plain.not_newline {w : List Char} (h : Plain w) : '\n' ∉ w := by
  intro hm
  have hb := (h.2 _ hm).1
  revert hb
  decide

theorem wordsFrom_append {w : List Char} (h : ∀ c ∈ w, Text.isBlank c = false)
    (cur rest : List Char) :
    Text.wordsFrom cur (w ++ rest) = Text.wordsFrom (w.reverse ++ cur) rest := by
  induction w generalizing cur with
  | nil => rfl
  | cons c w ih =>
    rw [List.cons_append, Text.wordsFrom, h c List.mem_cons_self, if_neg Bool.false_ne_true,
      ih fun d hd => h d (List.mem_cons_of_mem c hd)]
    simp

theorem wordsFrom_blanks {bs : List Char} (h : ∀ c ∈ bs, Text.isBlank c = true)
    (rest : List Char) : Text.wordsFrom [] (bs ++ rest) = Text.wordsFrom [] rest := by
  induction bs with
  | nil => rfl
  | cons c bs ih =>
    rw [List.cons_append, Text.wordsFrom, h c List.mem_cons_self, if_pos rfl]
    exact ih fun d hd => h d (List.mem_cons_of_mem c hd)

/-- a word that a blank ends -/
theorem wordsFrom_word {w : List Char} (h : Plain w) {b : Char} (hb : Text.isBlank b = true)
    (rest : List Char) : Text.wordsFrom [] (w ++ b :: rest) = w :: Text.wordsFrom [] rest := by
  have hne : (w.reverse ++ []).isEmpty = false := by
    simp [h.1]
  rw [wordsFrom_append fun c hc => (h.2 c hc).1, Text.wordsFrom, if_pos hb, hne,
    if_neg Bool.false_ne_true]
  simp

/-- a line that is no comment and not empty -/
theorem ofChars_start {lead rest : List Char} {c : Char}
    (hlead : ∀ d ∈ lead, Text.isBlank d = true) (hblank : Text.isBlank c = false)
    (hhash : c ≠ '#') : AsmLine.ofChars (lead ++ c :: rest) =
      if (lead ++ c :: rest).contains ':' then .label ((c :: rest).takeWhile (· != ':'))
      else .words (Text.wordsOf (lead ++ c :: rest)) := by
  have htrim : Text.trimLeft (lead ++ c :: rest) = c :: rest := by
    rw [Text.trimLeft, List.dropWhile_append_of_pos hlead,
      List.dropWhile_cons_of_neg (by simp [hblank])]
  have hcomment : isAsmComment (lead ++ c :: rest) = false := by
    rw [isAsmComment, htrim]
    simp [hhash]
  have hfull : (Text.trim (lead ++ c :: rest)).isEmpty = false := by
    rw [Text.trim, htrim, Text.trimRight, List.isEmpty_reverse, ← Bool.not_eq_true,
      List.isEmpty_iff, List.dropWhile_eq_nil_iff]
    intro hall
    have hc := hall c (by simp)
    rw [hblank] at hc
    cases hc
  rw [AsmLine.ofChars, hcomment, hfull, htrim]
  rfl

/-- a line of words: blanks first, then a word, and no colon anywhere -/
theorem ofChars_words {lead w rest : List Char} (hlead : ∀ c ∈ lead, Text.isBlank c = true)
    (hw : Plain w) (hcolon : ':' ∉ lead ++ (w ++ rest)) :
    AsmLine.ofChars (lead ++ (w ++ rest)) = .words (Text.wordsOf (lead ++ (w ++ rest))) := by
  obtain ⟨hne, hplain⟩ := hw
  cases w with
  | nil => exact absurd rfl hne
  | cons c w =>
    obtain ⟨hblank, -, hhash⟩ := hplain c List.mem_cons_self
    rw [List.cons_append, ofChars_start hlead hblank hhash, if_neg]
    rw [List.contains_iff_mem]
    exact hcolon

theorem plain_name (o : Opcode) : Plain o.name.toList := by
  cases o <;> exact plain_of_all (by decide) (by decide)

theorem shows_label {l : String} (h : Plain l.toList) : Shows (l.toList ++ [':']) (.label l) := by
  refine ⟨by simp [h.not_newline], ?_⟩
  obtain ⟨hne, hplain⟩ := h
  have hcolon : ∀ c ∈ l.toList, (c != ':') = true := by
    intro c hc
    rw [bne_iff_ne]
    exact (hplain c hc).2.1
  rw [Item.line, List.append_assoc]
  cases hl : l.toList with
  | nil => exact absurd hl hne
  | cons c w =>
    rw [hl] at hplain hcolon
    obtain ⟨hblank, -, hhash⟩ := hplain c List.mem_cons_self
    have hlead : ∀ d ∈ ([] : List Char), Text.isBlank d = true := nofun
    refine (ofChars_start hlead hblank hhash).trans ?_
    rw [if_pos (by simp)]
    exact congrArg AsmLine.label ((List.takeWhile_append_of_pos hcolon).trans (by simp))

theorem shows_op (o : Opcode) : Shows ('\t' :: o.name.toList) (.op o) := by
  have hw := plain_name o
  refine ⟨by simp [hw.not_newline], ?_⟩
  have hlead : ∀ c ∈ ['\t'], Text.isBlank c = true := List.forall_mem_singleton.2 (by decide)
  have hcolon : ':' ∉ ['\t'] ++ (o.name.toList ++ ['\n']) := by
    have hname : ':' ∉ o.name.toList := fun hm => (hw.2 _ hm).2.1 rfl
    simp [hname]
  refine (ofChars_words hlead hw hcolon).trans ?_
  rw [Text.wordsOf, wordsFrom_blanks hlead, wordsFrom_word hw (by decide)]
  rfl

theorem shows_opWord {lead : List Char} (hlead : ∀ c ∈ lead, Text.isBlank c = true ∧ c ≠ '\n')
    (o : Opcode) {w : String} (hw : Plain w.toList) :
    Shows (lead ++ (o.name.toList ++ ' ' :: w.toList)) (.opWord o w) := by
  have hname := plain_name o
  have hblank : ∀ c ∈ lead, Text.isBlank c = true := fun c hc => (hlead c hc).1
  have hcolon : ':' ∉ lead ++ (o.name.toList ++ ' ' :: (w.toList ++ ['\n'])) := by
    have h₁ : ':' ∉ lead := fun hm => absurd (hblank _ hm) (by decide)
    have h₂ : ':' ∉ o.name.toList := fun hm => (hname.2 _ hm).2.1 rfl
    have h₃ : ':' ∉ w.toList := fun hm => (hw.2 _ hm).2.1 rfl
    simp [h₁, h₂, h₃]
  constructor
  · have h₁ : '\n' ∉ lead := fun hm => (hlead _ hm).2 rfl
    simp [h₁, hname.not_newline, hw.not_newline]
  · have happ : lead ++ (o.name.toList ++ ' ' :: w.toList) ++ ['\n'] =
        lead ++ (o.name.toList ++ ' ' :: (w.toList ++ ['\n'])) := by
      simp
    rw [happ, ofChars_words hblank hname hcolon, Text.wordsOf, wordsFrom_blanks hblank,
      wordsFrom_word hname (by decide), wordsFrom_word hw (by decide)]
    rfl

theorem shows_zero : Shows [' ', ' ', ' ', ' ', '0'] .zero := ⟨by decide, by decide⟩

theorem shows_note {cs : List Char} (h : '\n' ∉ cs) : Shows ('#' :: cs) .note := by
  refine ⟨by simp [h], ?_⟩
  have hc : isAsmComment ('#' :: (cs ++ ['\n'])) = true := rfl
  rw [List.cons_append, AsmLine.ofChars, if_pos hc]
  rfl

end Pl0Kit.Machine

namespace Pl0Kit.Generator

open Machine

/-! ## items of events -/

/-- the instruction for a comparison -/
def compareOpcode (w : String) : Opcode := (Opcode.ofName? ("CMP" ++ w)).getD .nop

def Event.items : Event → List Item
  | .start => [.opWord .jmp "main"]
  | .cell l => [.label l, .zero]
  | .procHead _ => [.note]
  | .procOpen l => [.label l]
  | .procClose _ => [.op .ret]
  | .mainOpen => [.label "main"]
  | .mainClose => [.op .halt]
  | .loopOpen top _ => [.label top]
  | .loopExit _ bottom => [.opWord .je bottom]
  | .loopClose top bottom => [.opWord .jmp top, .label bottom]
  | .branch l => [.opWord .je l]
  | .join l => [.label l]
  | .odd => []
  | .compare w => [.op (compareOpcode w)]
  | .save l => [.opWord .save l]
  | .call l => [.opWord .call l]
  | .mul => [.op .mul]
  | .div => [.op .div]
  | .add => [.op .add]
  | .sub => [.op .sub]
  | .negate => [.opWord .push "-1", .op .mul]
  | .print => [.op .print, .op .pop]
  | .number t => [.opWord .push t]
  | .load l => [.opWord .load l]
  | .constant t => [.opWord .push t]

def itemsOf (es : List Event) : List Item := es.flatMap Event.items

@[simp] theorem itemsOf_nil : itemsOf [] = [] := rfl

@[simp] theorem itemsOf_cons (e : Event) (es : List Event) :
    itemsOf (e :: es) = e.items ++ itemsOf es := rfl

@[simp] theorem itemsOf_append (es ds : List Event) :
    itemsOf (es ++ ds) = itemsOf es ++ itemsOf ds := List.flatMap_append

theorem itemsOf_ifThen (cs ds : List Event) (l : String) (c : List Item) :
    itemsOf (cs ++ .branch l :: (ds ++ [.join l])) ++ c =
      itemsOf cs ++ .opWord .je l :: (itemsOf ds ++ .label l :: c) := by
  simp [Event.items]

theorem itemsOf_whileDo (top bottom : String) (cs ds : List Event) (c : List Item) :
    itemsOf (.loopOpen top bottom ::
        (loopEvents assembly top bottom cs ds ++ [.loopClose top bottom])) ++ c =
      .label top :: (itemsOf cs ++ .opWord .je bottom ::
        (itemsOf ds ++ .opWord .jmp top :: .label bottom :: c)) := by
  simp [Event.items, loopEvents, assembly]

/-- the code of a program: a jump, storage, procedures and the main part -/
theorem itemsOf_program (cells procs main : List Event) :
    itemsOf (.start :: (cells ++ (procs ++ .mainOpen :: (main ++ [.mainClose])))) =
      .opWord .jmp "main" :: (itemsOf cells ++ (itemsOf procs ++ .label "main" ::
        (itemsOf main ++ [.op .halt]))) := by
  simp [Event.items]

/-- an event whose labels and numbers are plain words -/
def Event.Plain : Event → Prop
  | .cell l | .procOpen l | .join l | .branch l | .save l | .load l | .call l | .number l
  | .constant l => Machine.Plain l.toList
  | .procHead p => '\n' ∉ p.toList
  | .loopOpen top _ => Machine.Plain top.toList
  | .loopExit _ bottom => Machine.Plain bottom.toList
  | .loopClose top bottom => Machine.Plain top.toList ∧ Machine.Plain bottom.toList
  | .compare w => ∃ op : RelOp, w = op.word
  | _ => True

theorem opWord_lines (o : Opcode) {w : String} (h : Machine.Plain w.toList) (rest : List Char) :
    asmLines ('\t' :: (o.name.toList ++ ' ' :: (w.toList ++ '\n' :: rest))) =
      (Item.opWord o w).line :: asmLines rest := by
  have hlead : ∀ c ∈ ['\t'], Text.isBlank c = true ∧ c ≠ '\n' :=
    List.forall_mem_singleton.2 (by decide)
  rw [← (shows_opWord hlead o h).asmLines rest]
  simp

theorem op_lines (o : Opcode) (rest : List Char) :
    asmLines ('\t' :: (o.name.toList ++ '\n' :: rest)) = (Item.op o).line :: asmLines rest :=
  (shows_op o).asmLines rest

theorem label_lines {l : String} (h : Machine.Plain l.toList) (rest : List Char) :
    asmLines (l.toList ++ ':' :: '\n' :: rest) = (Item.label l).line :: asmLines rest := by
  rw [← (shows_label h).asmLines rest]
  simp

theorem plain_main : Machine.Plain "main".toList :=
  plain_of_all (by decide) (by decide)

theorem compare_name (op : RelOp) : (compareOpcode op.word).name = "CMP" ++ op.word := by
  cases op <;> decide

/-- the text of an event is read as its items -/
theorem asmLines_event {e : Event} (h : e.Plain) (rest : List Char) :
    asmLines ((assembly.text e).toList ++ rest) = e.items.map Item.line ++ asmLines rest := by
  cases e with
  | start =>
    have hlead : ∀ c ∈ ([] : List Char), Text.isBlank c = true ∧ c ≠ '\n' := nofun
    simpa [assembly, Event.items, Opcode.name] using (shows_opWord hlead .jmp plain_main).asmLines
      rest
  | cell l =>
    have hzero := shows_zero.asmLines rest
    simpa [assembly, Event.items, ← hzero] using label_lines h _
  | procHead p =>
    have hnote : '\n' ∉ " Procedure ".toList ++ p.toList := by
      rw [List.mem_append, not_or]
      exact ⟨by decide, h⟩
    simpa [assembly, Event.items] using (shows_note hnote).asmLines rest
  | procOpen l | join l | loopOpen l _ => simpa [assembly, Event.items] using label_lines h rest
  | mainOpen => simpa [assembly, Event.items] using label_lines plain_main rest
  | procClose _ => simpa [assembly, Event.items, Opcode.name] using op_lines .ret rest
  | mainClose => simpa [assembly, Event.items, Opcode.name] using op_lines .halt rest
  | loopExit _ l => simpa [assembly, Event.items, Opcode.name] using opWord_lines .je h rest
  | loopClose top bottom =>
    have hbottom := label_lines h.2 rest
    simpa [assembly, Event.items, Opcode.name, ← hbottom] using opWord_lines .jmp h.1 _
  | branch l => simpa [assembly, Event.items, Opcode.name] using opWord_lines .je h rest
  | odd => simp [assembly, Event.items]
  | compare w =>
    obtain ⟨op, rfl⟩ := h
    have hop := op_lines (compareOpcode op.word) rest
    rw [compare_name] at hop
    simpa [assembly, Event.items] using hop
  | save l => simpa [assembly, Event.items, Opcode.name] using opWord_lines .save h rest
  | call l => simpa [assembly, Event.items, Opcode.name] using opWord_lines .call h rest
  | mul => simpa [assembly, Event.items, Opcode.name] using op_lines .mul rest
  | div => simpa [assembly, Event.items, Opcode.name] using op_lines .div rest
  | add => simpa [assembly, Event.items, Opcode.name] using op_lines .add rest
  | sub => simpa [assembly, Event.items, Opcode.name] using op_lines .sub rest
  | negate =>
    have hminus : Machine.Plain "-1".toList := plain_of_all (by decide) (by decide)
    have hmul := op_lines .mul rest
    have hpush := opWord_lines .push hminus ('\t' :: (Opcode.mul.name.toList ++ '\n' :: rest))
    rw [hmul] at hpush
    simpa [assembly, Event.items, Opcode.name] using hpush
  | print =>
    have hpop := op_lines .pop rest
    have hprint := op_lines .print ('\t' :: (Opcode.pop.name.toList ++ '\n' :: rest))
    rw [hpop] at hprint
    simpa [assembly, Event.items, Opcode.name] using hprint
  | number t | constant t =>
    simpa [assembly, Event.items, Opcode.name] using opWord_lines .push h rest
  | load l => simpa [assembly, Event.items, Opcode.name] using opWord_lines .load h rest

theorem asmLines_render {es : List Event} (h : ∀ e ∈ es, e.Plain) :
    asmLines (render assembly es).toList = (itemsOf es).map Item.line := by
  induction es with
  | nil => rfl
  | cons e es ih =>
    have htext : (render assembly (e :: es)).toList =
        (assembly.text e).toList ++ (render assembly es).toList := by
      simp [render]
    rw [htext, asmLines_event (h e List.mem_cons_self), itemsOf_cons, List.map_append,
      ih fun d hd => h d (List.mem_cons_of_mem e hd)]

end Pl0Kit.Generator
