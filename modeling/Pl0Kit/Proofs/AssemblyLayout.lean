import Mathlib.Logic.Relation
import Pl0Kit.Proofs.Listing

/-!
# Names and layout of assembly

A `SourceLine` is a line of assembly as it is written: a comment, blanks, a label, or words with
blanks around them. The assembler takes from lines only their parts, which are labels and words in
order (`foldl_asmLines`):

* `Relaid`   one change of layout, which leaves the parts as they are (`parts_relaid`);
* `Alike`    two states of the assembler, the second for the same parts under other names.  Each
             part keeps them alike (`Alike.add`) as long as different words have different names.

Together `assembly_ignores_names_and_layout`: the code that a text stands for depends on neither.
-/

namespace Pl0Kit.Machine

/-! ## lines as they are written -/

/-- blanks within a line -/
structure Blanks where
  chars : List Char
  blank : ∀ c ∈ chars, Text.isBlank c = true ∧ c ≠ '\n'

/-- blanks between two words -/
structure Gap extends Blanks where
  ne_nil : chars ≠ []

/-- a word that does not look like a comment and has no colon -/
structure AsmWord where
  chars : List Char
  ne_nil : chars ≠ []
  noComment : chars.head? ≠ some '#'
  solid : ∀ c ∈ chars, Text.isBlank c = false ∧ c ≠ ':'
  deriving DecidableEq

inductive SourceLine where
  | comment (lead : Blanks) (rest : {cs : List Char // '\n' ∉ cs})
  | blank (lead : Blanks)
  | label (lead : Blanks) (name : AsmWord) (tail : Blanks)
  | words (lead : Blanks) (first : AsmWord) (more : List (Gap × AsmWord)) (tail : Blanks)

/-- words with blanks before each of them -/
def spaced (more : List (Gap × AsmWord)) : List Char := more.flatMap fun m => m.1.chars ++ m.2.chars

namespace SourceLine

def chars : SourceLine → List Char
  | comment lead rest => lead.chars ++ '#' :: rest.1
  | blank lead => lead.chars
  | label lead name tail => lead.chars ++ (name.chars ++ ':' :: tail.chars)
  | words lead first more tail => lead.chars ++ (first.chars ++ (spaced more ++ tail.chars))

/-- the line with other blanks at its start -/
def indent (lead : Blanks) : SourceLine → SourceLine
  | comment _ rest => comment lead rest
  | blank _ => blank lead
  | label _ name tail => label lead name tail
  | words _ first more tail => words lead first more tail

/-- the line with other words -/
def map (f : AsmWord → AsmWord) : SourceLine → SourceLine
  | label lead name tail => label lead (f name) tail
  | words lead first more tail => words lead (f first) (more.map fun m => (m.1, f m.2)) tail
  | x => x

end SourceLine

/-- lines with line ends between them -/
def joinLines : List SourceLine → List Char
  | [] => []
  | [x] => x.chars
  | x :: y :: xs => x.chars ++ '\n' :: joinLines (y :: xs)

def sourceText (xs : List SourceLine) : String := String.ofList (joinLines xs)

/-! ## the parts of a text -/

/-- what the assembler takes from lines -/
inductive Part where
  | label (name : AsmWord)
  | word (w : AsmWord)

namespace Part

def name : Part → AsmWord
  | label l => l
  | word w => w

def map (f : AsmWord → AsmWord) : Part → Part
  | label l => label (f l)
  | word w => word (f w)

def label? : Part → Option AsmWord
  | label l => some l
  | word _ => none

def word? : Part → Option AsmWord
  | label _ => none
  | word w => some w

end Part

def SourceLine.parts : SourceLine → List Part
  | comment _ _ => []
  | blank _ => []
  | label _ name _ => [.label name]
  | words _ first more _ => .word first :: more.map fun m => .word m.2

def partsOf (xs : List SourceLine) : List Part := xs.flatMap SourceLine.parts

/-- the labels of a text -/
def partLabels (xs : List SourceLine) : List AsmWord := (partsOf xs).filterMap Part.label?

/-- the words of its instructions -/
def partWords (xs : List SourceLine) : List AsmWord := (partsOf xs).filterMap Part.word?

def Assembly.add (a : Assembly) : Part → Assembly
  | .label l => a.addLine (.label l.chars)
  | .word w => a.addLine (.words [w.chars])

/-! ## reading lines -/

section

variable {bs : List Char}

theorem wordsFrom_end {w : AsmWord} (h : ∀ c ∈ bs, Text.isBlank c = true) :
    Text.wordsOf (w.chars ++ bs) = [w.chars] := by
  have hne : (w.chars.reverse ++ []).isEmpty = false := by simp [w.ne_nil]
  rw [Text.wordsOf, wordsFrom_append fun c hc => (w.solid c hc).1]
  cases bs with
  | nil =>
    rw [Text.wordsFrom, hne]
    simp
  | cons b bs =>
    obtain ⟨hb, hbs⟩ := List.forall_mem_cons.1 h
    have hrest : Text.wordsFrom [] bs = [] := by
      rw [← bs.append_nil, wordsFrom_blanks hbs]
      rfl
    rw [Text.wordsFrom, if_pos hb, hne, hrest]
    simp

theorem wordsOf_spaced (more : List (Gap × AsmWord)) (h : ∀ c ∈ bs, Text.isBlank c = true) :
    ∀ w : AsmWord, Text.wordsOf (w.chars ++ (spaced more ++ bs)) = w.chars :: more.map fun m =>
      m.2.chars := by
  induction more with
  | nil => exact fun w => wordsFrom_end h
  | cons m more ih =>
    intro w
    obtain ⟨g, v⟩ := m
    have htext : w.chars ++ (spaced ((g, v) :: more) ++ bs) =
        w.chars ++ (g.chars ++ (v.chars ++ (spaced more ++ bs))) := by
      simp [spaced]
    have hgap : ∀ c ∈ g.chars, Text.isBlank c = true := fun c hc => (g.blank c hc).1
    have hne : (w.chars.reverse ++ []).isEmpty = false := by simp [w.ne_nil]
    rw [htext, Text.wordsOf, wordsFrom_append fun c hc => (w.solid c hc).1]
    -- the first blank ends the word, and the others are passed over
    obtain ⟨b, rest, hg⟩ := List.exists_cons_of_ne_nil g.ne_nil
    rw [hg] at hgap ⊢
    obtain ⟨hb, hrest⟩ := List.forall_mem_cons.1 hgap
    rw [List.cons_append, Text.wordsFrom, if_pos hb, hne, wordsFrom_blanks hrest,
      ← Text.wordsOf, ih v]
    simp

theorem colon_not_mem_spaced (more : List (Gap × AsmWord)) : ':' ∉ spaced more := by
  intro h
  obtain ⟨m, -, hm⟩ := List.mem_flatMap.1 h
  rcases List.mem_append.1 hm with hm | hm
  · exact absurd (m.1.blank _ hm).1 (by decide)
  · exact (m.2.solid _ hm).2 rfl

theorem AsmWord.start (w : AsmWord) :
    ∃ c cs, w.chars = c :: cs ∧ Text.isBlank c = false ∧ c ≠ '#' := by
  obtain ⟨c, cs, hcs⟩ := List.exists_cons_of_ne_nil w.ne_nil
  have hc : c ∈ w.chars := by
    rw [hcs]
    exact List.mem_cons_self
  refine ⟨c, cs, hcs, (w.solid c hc).1, fun he => w.noComment ?_⟩
  rw [hcs, he]
  rfl

theorem addLine_words (ws : List (List Char)) (a : Assembly) :
    a.addLine (.words ws) = ws.foldl (fun a w => a.addLine (.words [w])) a := by
  induction ws generalizing a with
  | nil => simp [Assembly.addLine]
  | cons w ws ih =>
    rw [List.foldl_cons, ← ih]
    simp [Assembly.addLine]

/-- the assembler takes its parts from a line, whatever blanks end it -/
theorem addLine_chars (x : SourceLine) (h : ∀ c ∈ bs, Text.isBlank c = true) (a : Assembly) :
    a.addLine (.ofChars (x.chars ++ bs)) = x.parts.foldl Assembly.add a := by
  have hblank : ∀ {l : Blanks}, ∀ c ∈ l.chars, Text.isBlank c = true :=
    fun {l} c hc => (l.blank c hc).1
  cases x with
  | comment lead rest =>
    have hcomment : isAsmComment (lead.chars ++ '#' :: rest.1 ++ bs) = true := by
      rw [isAsmComment, Text.trimLeft, List.append_assoc, List.dropWhile_append_of_pos hblank]
      rfl
    rw [SourceLine.chars, AsmLine.ofChars, if_pos hcomment]
    rfl
  | blank lead =>
    have htrim : Text.trimLeft (lead.chars ++ bs) = [] := by
      refine List.dropWhile_eq_nil_iff.2 fun c hc => ?_
      exact (List.mem_append.1 hc).elim (hblank c) (h c)
    rw [SourceLine.chars, AsmLine.ofChars, isAsmComment, Text.trim, htrim]
    rfl
  | label lead name tail =>
    obtain ⟨c, cs, hcs, hc, hhash⟩ := name.start
    have hname : ∀ d ∈ name.chars, (d != ':') = true := fun d hd => bne_iff_ne.2 (name.solid d hd).2
    have htext : (SourceLine.label lead name tail).chars ++ bs =
        lead.chars ++ c :: (cs ++ ':' :: (tail.chars ++ bs)) := by
      rw [SourceLine.chars, hcs]
      simp
    rw [htext, ofChars_start hblank hc hhash, if_pos (by simp), ← List.cons_append, ← hcs,
      List.takeWhile_append_of_pos hname]
    simp [SourceLine.parts, Assembly.add]
  | words lead first more tail =>
    obtain ⟨c, cs, hcs, hc, hhash⟩ := first.start
    have hend : ∀ d ∈ tail.chars ++ bs, Text.isBlank d = true := fun d hd =>
      (List.mem_append.1 hd).elim (hblank d) (h d)
    have hnone : ∀ {ds : List Char}, (∀ d ∈ ds, Text.isBlank d = true) → ':' ∉ ds :=
      fun hds hm => absurd (hds _ hm) (by decide)
    have hcolon : ':' ∉ lead.chars ++ (first.chars ++ (spaced more ++ (tail.chars ++ bs))) := by
      simp only [List.mem_append, not_or]
      have hfirst : ':' ∉ first.chars := fun hm => (first.solid _ hm).2 rfl
      have htail := hnone hend
      rw [List.mem_append, not_or] at htail
      exact ⟨hnone hblank, hfirst, colon_not_mem_spaced more, htail⟩
    have htext : (SourceLine.words lead first more tail).chars ++ bs =
        lead.chars ++ (first.chars ++ (spaced more ++ (tail.chars ++ bs))) := by
      rw [SourceLine.chars]
      simp
    have hread : AsmLine.ofChars
        (lead.chars ++ (first.chars ++ (spaced more ++ (tail.chars ++ bs)))) =
        .words (first.chars :: more.map fun m => m.2.chars) := by
      have hwords : Text.wordsOf
          (lead.chars ++ (first.chars ++ (spaced more ++ (tail.chars ++ bs)))) = _ :=
        (wordsFrom_blanks hblank _).trans (wordsOf_spaced more hend first)
      rw [← hwords, hcs, List.cons_append, ofChars_start hblank hc hhash, if_neg]
      rw [List.contains_iff_mem, ← List.cons_append, ← hcs]
      exact hcolon
    rw [htext, hread, addLine_words, SourceLine.parts, List.foldl_cons, List.foldl_cons,
      List.foldl_map, List.foldl_map]
    rfl

theorem newline_not_mem_chars (x : SourceLine) : '\n' ∉ x.chars := by
  have hblanks : ∀ l : Blanks, '\n' ∉ l.chars := fun l hm => (l.blank _ hm).2 rfl
  have hword : ∀ w : AsmWord, '\n' ∉ w.chars := fun w hm => absurd (w.solid _ hm).1 (by decide)
  cases x with
  | comment lead rest => simp [SourceLine.chars, hblanks, rest.2]
  | blank lead => exact hblanks lead
  | label lead name tail => simp [SourceLine.chars, hblanks, hword]
  | words lead first more tail => simp [SourceLine.chars, spaced, hblanks, hword]

theorem newlineLinesFrom_last {cs : List Char} (h : '\n' ∉ cs) (cur : List Char) :
    Text.newlineLinesFrom cur cs =
      if (cur.reverse ++ cs).isEmpty then [] else [cur.reverse ++ cs] := by
  induction cs generalizing cur with
  | nil => simp [Text.newlineLinesFrom]
  | cons c cs ih =>
    obtain ⟨hc, hcs⟩ := not_or.1 (mt List.mem_cons.2 h)
    rw [Text.newlineLinesFrom, ih hcs]
    · simp
    · exact fun he => hc he.symm

/-- **The assembler takes from a text its parts.** -/
theorem foldl_asmLines (xs : List SourceLine) (a : Assembly) :
    (asmLines (joinLines xs)).foldl Assembly.addLine a = (partsOf xs).foldl Assembly.add a := by
  fun_induction joinLines xs generalizing a with
  | case1 => rfl
  | case2 x =>
    have hx := addLine_chars x (List.forall_mem_nil _) a
    rw [List.append_nil] at hx
    rw [asmLines, Text.newlineLines, newlineLinesFrom_last (newline_not_mem_chars x),
      List.reverse_nil, List.nil_append, partsOf, List.flatMap_singleton, ← hx]
    by_cases hempty : x.chars = []
    · rw [hempty]
      rfl
    · rw [if_neg (by simpa using hempty)]
      rfl
  | case3 x y xs ih =>
    have hend : ∀ c ∈ ['\n'], Text.isBlank c = true := List.forall_mem_singleton.2 (by decide)
    rw [asmLines, Text.newlineLines, newlineLinesFrom_append (newline_not_mem_chars x),
      List.map_cons, List.foldl_cons, List.reverse_nil, List.nil_append, addLine_chars x hend,
      partsOf, List.flatMap_cons, List.foldl_append]
    exact ih _

theorem assemble_sourceText (xs : List SourceLine) :
    assemble (sourceText xs) = ((partsOf xs).foldl Assembly.add {}).code := by
  rw [assemble, sourceText, String.toList_ofList, assembleLines, ← foldl_asmLines]
  rfl

end

/-! ## layout -/

/-- one change of layout: a comment or a blank line more, another start of a line, or a line of
words cut in two -/
inductive Relaid : List SourceLine → List SourceLine → Prop
  | comment (xs ys : List SourceLine) (lead : Blanks) (rest : {cs : List Char // '\n' ∉ cs}) :
      Relaid (xs ++ ys) (xs ++ .comment lead rest :: ys)
  | blank (xs ys : List SourceLine) (lead : Blanks) : Relaid (xs ++ ys) (xs ++ .blank lead :: ys)
  | indent (xs ys : List SourceLine) (x : SourceLine) (lead : Blanks) :
      Relaid (xs ++ x :: ys) (xs ++ x.indent lead :: ys)
  | cut (xs ys : List SourceLine) (lead lead' tail tail' : Blanks) (w v : AsmWord) (g : Gap)
      (pre post : List (Gap × AsmWord)) :
      Relaid (xs ++ .words lead w (pre ++ (g, v) :: post) tail :: ys)
        (xs ++ .words lead w pre tail' :: .words lead' v post tail :: ys)

theorem parts_relaid {xs ys : List SourceLine} (h : Relaid xs ys) : partsOf ys = partsOf xs := by
  unfold partsOf
  cases h with
  | comment | blank => simp [SourceLine.parts]
  | indent xs ys x lead => cases x <;> simp [SourceLine.parts, SourceLine.indent]
  | cut => simp [SourceLine.parts]

/-- any number of such changes, and back -/
theorem parts_eqvGen {xs ys : List SourceLine} (h : Relation.EqvGen Relaid xs ys) :
    partsOf ys = partsOf xs := by
  induction h with
  | rel _ _ h => exact parts_relaid h
  | refl => rfl
  | symm _ _ _ ih => exact ih.symm
  | trans _ _ _ _ _ ih ih' => exact ih'.trans ih

/-! ## names -/

def AsmWord.text (w : AsmWord) : String := String.ofList w.chars

/-- a word that may name a place: no number and no instruction -/
def AsmWord.IsName (w : AsmWord) : Prop :=
  Text.readInt? w.chars = none ∧ Opcode.ofName? w.text = none

theorem AsmWord.text_inj {v w : AsmWord} (h : v.text = w.text) : v = w := by
  have hchars : v.chars = w.chars := String.ofList_injective h
  obtain ⟨vs, _, _, _⟩ := v
  obtain ⟨ws, _, _, _⟩ := w
  cases hchars
  rfl

theorem AsmWord.IsName.cellOf {w : AsmWord} (h : w.IsName) : cellOf w.chars = .str w.text := by
  obtain ⟨hread, hname⟩ := h
  rw [AsmWord.text] at hname ⊢
  rw [Machine.cellOf, hread, hname]

/-- a label is moved to the place of the next word -/
theorem place?_add_label (a : Assembly) (l w : AsmWord) :
    (a.add (.label l)).place? w.text = if l = w then some a.cells.length else a.place? w.text := by
  unfold Assembly.place? Assembly.add Assembly.addLine
  by_cases h : l = w
  · subst h
    simp [AsmWord.text]
  · have hne : (String.ofList l.chars == w.text) = false := by
      rw [beq_eq_false_iff_ne]
      exact fun he => h (AsmWord.text_inj he)
    rw [List.find?_cons, hne, if_neg h]

section

variable {ρ : AsmWord → AsmWord} {W : AsmWord → Prop} {a b : Assembly} {ps : List Part}

/-- `a` after some parts and `b` after the same parts under other names: there are as many cells,
and the words `W` are given the same places -/
structure Alike (ρ : AsmWord → AsmWord) (W : AsmWord → Prop) (a b : Assembly) : Prop where
  size : b.cells.length = a.cells.length
  places : ∀ w, W w → b.place? (ρ w).text = a.place? w.text

/-- a step of the assembler -/
theorem Alike.add (hρ : ∀ v w, W v → W w → ρ v = ρ w → v = w) (h : Alike ρ W a b) {p : Part}
    (hp : W p.name) : Alike ρ W (a.add p) (b.add (p.map ρ)) := by
  cases p with
  | label l =>
    refine ⟨h.size, fun w hw => ?_⟩
    have hsame : ρ l = ρ w ↔ l = w := ⟨hρ l w hp hw, congrArg ρ⟩
    rw [Part.map, place?_add_label, place?_add_label, h.size, h.places w hw]
    simp only [hsame]
  | word w =>
    refine ⟨?_, h.places⟩
    have hsize := h.size
    simp [Part.map, Assembly.add, Assembly.addLine, hsize]

/-- a run of the assembler -/
theorem Alike.foldl (hρ : ∀ v w, W v → W w → ρ v = ρ w → v = w) (h : Alike ρ W a b)
    (hps : ∀ p ∈ ps, W p.name) :
    Alike ρ W (ps.foldl Assembly.add a) ((ps.map (Part.map ρ)).foldl Assembly.add b) := by
  induction ps generalizing a b with
  | nil => exact h
  | cons p ps ih =>
    obtain ⟨hp, hps⟩ := List.forall_mem_cons.1 hps
    exact ih (h.add hρ hp) hps

/-- all labels have places -/
theorem isSome_place? {l : AsmWord} (h : l ∈ ps.filterMap Part.label? ∨ (a.place? l.text).isSome) :
    ((ps.foldl Assembly.add a).place? l.text).isSome := by
  induction ps generalizing a with
  | nil => exact h.resolve_left List.not_mem_nil
  | cons p ps ih =>
    refine ih ?_
    cases p with
    | word w => exact h
    | label k =>
      rw [place?_add_label]
      split
      · exact .inr rfl
      · rename_i hne
        refine h.imp_left fun hl => ?_
        exact (List.mem_cons.1 hl).resolve_left fun he => hne he.symm

theorem cells_foldl (ps : List Part) (a : Assembly) : (ps.foldl Assembly.add a).cells =
    a.cells ++ (ps.filterMap Part.word?).map fun w => cellOf w.chars := by
  induction ps generalizing a with
  | nil => simp
  | cons p ps ih =>
    rw [List.foldl_cons, ih]
    cases p <;> simp [Assembly.add, Assembly.addLine, Part.word?, List.filterMap_cons]

theorem words_map (ps : List Part) :
    (ps.map (Part.map ρ)).filterMap Part.word? = (ps.filterMap Part.word?).map ρ := by
  induction ps with
  | nil => rfl
  | cons p ps ih => cases p <;> simp [Part.map, Part.word?, ih, List.filterMap_cons]

end

/-! ## renaming -/

/-- labels get new names, and other words stay -/
def renameBy (σ : AsmWord → AsmWord) (ls : List AsmWord) (w : AsmWord) : AsmWord :=
  if w ∈ ls then σ w else w

/-- the text with new names for its labels, where they are given and where they are used -/
def renamed (σ : AsmWord → AsmWord) (xs : List SourceLine) : List SourceLine :=
  xs.map (SourceLine.map (renameBy σ (partLabels xs)))

/-- `σ` gives different names to different labels, and none that is a word of the text for something
else -/
structure Renames (σ : AsmWord → AsmWord) (xs : List SourceLine) : Prop where
  name : ∀ l ∈ partLabels xs, l.IsName
  newName : ∀ l ∈ partLabels xs, (σ l).IsName
  inj : ∀ l ∈ partLabels xs, ∀ k ∈ partLabels xs, σ l = σ k → l = k
  unused : ∀ l ∈ partLabels xs, σ l ∈ partWords xs → σ l ∈ partLabels xs

theorem partsOf_map (ρ : AsmWord → AsmWord) (xs : List SourceLine) :
    partsOf (xs.map (SourceLine.map ρ)) = (partsOf xs).map (Part.map ρ) := by
  induction xs with
  | nil => rfl
  | cons x xs ih =>
    unfold partsOf at ih ⊢
    rw [List.map_cons, List.flatMap_cons, ih, List.flatMap_cons, List.map_append]
    cases x <;> simp [SourceLine.map, SourceLine.parts, Part.map]

section

variable {σ : AsmWord → AsmWord} {xs : List SourceLine}

theorem name_mem {p : Part} (h : p ∈ partsOf xs) :
    p.name ∈ partLabels xs ∨ p.name ∈ partWords xs := by
  cases p with
  | label l => exact .inl (List.mem_filterMap.2 ⟨_, h, rfl⟩)
  | word w => exact .inr (List.mem_filterMap.2 ⟨_, h, rfl⟩)

/-- different words of the text stay different -/
theorem Renames.renameBy_inj (h : Renames σ xs) (v w : AsmWord)
    (hv : v ∈ partLabels xs ∨ v ∈ partWords xs) (hw : w ∈ partLabels xs ∨ w ∈ partWords xs)
    (heq : renameBy σ (partLabels xs) v = renameBy σ (partLabels xs) w) : v = w := by
  unfold renameBy at heq
  split at heq
  · rename_i hl
    split at heq
    · rename_i hk
      exact h.inj v hl w hk heq
    · rename_i hk
      subst heq
      exact absurd (h.unused v hl (hw.resolve_left hk)) hk
  · rename_i hl
    split at heq
    · rename_i hk
      subst heq
      exact absurd (h.unused w hk (hv.resolve_left hl)) hl
    · exact heq

/-- a word of the text stands for the same cell -/
theorem Renames.resolve_eq (h : Renames σ xs) {a b : Assembly} {w : AsmWord}
    (hplace : b.place? (renameBy σ (partLabels xs) w).text = a.place? w.text)
    (hlabel : w ∈ partLabels xs → (a.place? w.text).isSome) :
    b.resolve (cellOf (renameBy σ (partLabels xs) w).chars) = a.resolve (cellOf w.chars) := by
  unfold renameBy at hplace ⊢
  by_cases hw : w ∈ partLabels xs
  · obtain ⟨n, hn⟩ := Option.isSome_iff_exists.1 (hlabel hw)
    rw [if_pos hw] at hplace ⊢
    rw [(h.name w hw).cellOf, (h.newName w hw).cellOf, Assembly.resolve, Assembly.resolve,
      hplace, hn]
  · rw [if_neg hw] at hplace ⊢
    unfold cellOf
    split
    · rfl
    · split
      · rfl
      · show b.resolve (.str w.text) = a.resolve (.str w.text)
        rw [Assembly.resolve, Assembly.resolve, hplace]

theorem assemble_renamed (h : Renames σ xs) :
    assemble (sourceText (renamed σ xs)) = assemble (sourceText xs) := by
  have halike : Alike (renameBy σ (partLabels xs)) (fun w => w ∈ partLabels xs ∨ w ∈ partWords xs)
      ((partsOf xs).foldl Assembly.add {}) ((partsOf (renamed σ xs)).foldl Assembly.add {}) := by
    rw [renamed, partsOf_map]
    exact Alike.foldl h.renameBy_inj ⟨rfl, fun _ _ => rfl⟩ fun p hp => name_mem hp
  rw [assemble_sourceText, assemble_sourceText, Assembly.code, Assembly.code, cells_foldl,
    cells_foldl, renamed, partsOf_map, words_map, List.nil_append, List.nil_append, List.map_map,
    List.map_map, List.map_map]
  refine List.map_congr_left fun w hw => ?_
  rw [renamed, partsOf_map] at halike
  exact h.resolve_eq (halike.places w (.inr hw)) fun hl => isSome_place? (.inl hl)

end

/-- **Assembly depends neither on the names of labels nor on layout.** -/
theorem assembly_ignores_names_and_layout (xs : List SourceLine) :
    (∀ σ, Renames σ xs → assemble (sourceText (renamed σ xs)) = assemble (sourceText xs)) ∧
      ∀ ys, Relation.EqvGen Relaid xs ys → assemble (sourceText ys) = assemble (sourceText xs) := by
  refine ⟨fun σ hσ => assemble_renamed hσ, fun ys hys => ?_⟩
  rw [assemble_sourceText, assemble_sourceText, parts_eqvGen hys]

def noBlanks : Blanks := ⟨[], List.forall_mem_nil _⟩

theorem solid_of_all {cs : List Char} (h : cs.all (fun c => !Text.isBlank c && c != ':') = true) :
    ∀ c ∈ cs, Text.isBlank c = false ∧ c ≠ ':' := by
  simpa using h

/-- a jump to itself, under the label `l` -/
def jumpTo (l : AsmWord) : List SourceLine :=
  [.label noBlanks l noBlanks,
    .words ⟨['\t'], List.forall_mem_singleton.2 (by decide)⟩
      ⟨['J', 'M', 'P'], List.cons_ne_nil _ _, by decide, solid_of_all rfl⟩
      [(⟨⟨[' '], List.forall_mem_singleton.2 (by decide)⟩, List.cons_ne_nil _ _⟩, l)] noBlanks]

/-- a label of one letter is renamed, and a comment is added -/
theorem assemble_jump :
    assemble "a:\n\tJMP a" = [.int 16, .int 0] ∧ assemble "b:\n\tJMP b" = assemble "a:\n\tJMP a" ∧
      assemble "# a\na:\n\tJMP a" = assemble "a:\n\tJMP a" := by
  let a : AsmWord := ⟨['a'], List.cons_ne_nil _ _, by decide, solid_of_all rfl⟩
  let b : AsmWord := ⟨['b'], List.cons_ne_nil _ _, by decide, solid_of_all rfl⟩
  have hname : a.IsName ∧ b.IsName := ⟨⟨by decide, by decide⟩, by decide, by decide⟩
  have hlabels : ∀ l ∈ partLabels (jumpTo a), l = a := by
    simp [partLabels, partsOf, jumpTo, SourceLine.parts, Part.label?]
  have hrenames : Renames (fun _ => b) (jumpTo a) := by
    refine ⟨fun l hl => ?_, fun l hl => hname.2, fun l hl k hk _ => ?_, fun l hl hb => ?_⟩
    · rw [hlabels l hl]
      exact hname.1
    · rw [hlabels l hl, hlabels k hk]
    · exact absurd hb (by decide)
  have hcomment : Relation.EqvGen Relaid (jumpTo a)
      (.comment noBlanks ⟨[' ', 'a'], by decide⟩ :: jumpTo a) :=
    .rel _ _ (.comment [] (jumpTo a) _ _)
  obtain ⟨hnames, hlayout⟩ := assembly_ignores_names_and_layout (jumpTo a)
  have hb := hnames _ hrenames
  have hlong := hlayout _ hcomment
  exact ⟨rfl, hb, hlong⟩

end Pl0Kit.Machine
