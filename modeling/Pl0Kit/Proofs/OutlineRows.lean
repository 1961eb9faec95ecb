import Pl0Kit.Outline
import Pl0Kit.Proofs.Scopes

/-!
# Rows of outlines

An outline is a list of rows, each with a depth and the value that it shows: a word, or a list or
tuple of words and numbers.  The text of an outline tells its rows.

* `Legible`     values that rows of a program show; names are made of name characters;
* `chars`       the text of rows;
* `chars_inj`   **rows with the same text are the same rows**.
-/

namespace Pl0Kit.Outline

open Act

/-- two texts that go on in ways they cannot be read on are cut at the same place -/
theorem append_border_inj {α : Type} {a a' : α} {xs xs' zs zs' : List α} (ha : a ∉ xs')
    (ha' : a' ∉ xs) (h : xs ++ a :: zs = xs' ++ a' :: zs') : xs = xs' ∧ a = a' ∧ zs = zs' := by
  induction xs generalizing xs' with
  | nil =>
    cases xs' with
    | nil =>
      cases h
      exact ⟨rfl, rfl, rfl⟩
    | cons x xs' =>
      obtain ⟨rfl, -⟩ := List.cons.inj h
      exact absurd List.mem_cons_self ha
  | cons x xs ih =>
    cases xs' with
    | nil =>
      obtain ⟨rfl, -⟩ := List.cons.inj h
      exact absurd List.mem_cons_self ha'
    | cons x' xs' =>
      obtain ⟨rfl, htail⟩ := List.cons.inj h
      obtain ⟨rfl, hrest⟩ :=
        ih (List.not_mem_of_not_mem_cons ha) (List.not_mem_of_not_mem_cons ha') htail
      exact ⟨rfl, hrest⟩

/-! ## words and numbers -/

/-- a text of name characters -/
def Wordlike (s : String) : Prop := s.toList ≠ [] ∧ ∀ c ∈ s.toList, Lexeme.isNameChar c = true

instance (s : String) : Decidable (Wordlike s) :=
  decidable_of_iff ((!s.toList.isEmpty && s.toList.all Lexeme.isNameChar) = true)
    (by simp [Wordlike])

theorem Wordlike.ofIdentifier {x : String} (h : Identifier x) : Wordlike x := by
  obtain ⟨c, cs, hx, -⟩ := h.start
  exact ⟨hx ▸ List.cons_ne_nil c cs, Generator.nameChars_of_identifier h⟩

theorem escapeChar_nameChar {c : Char} (h : Lexeme.isNameChar c = true) :
    Text.escapeChar '\'' c = [c] := by
  have hn := Generator.toNat_of_isNameChar h
  have hne : ∀ d : Char, Lexeme.isNameChar d = false → c ≠ d := by
    rintro d hd rfl
    exact Bool.false_ne_true (hd.symm.trans h)
  have hshown : Text.isShown c = true := by
    rw [Text.isShown, if_pos (by omega)]
    simp only [Bool.and_eq_true, decide_eq_true_eq]
    omega
  simp [Text.escapeChar, hne '\'' (by decide), hne '\\' (by decide), hne '\n' (by decide),
    hne '\r' (by decide), hne '\t' (by decide), hshown]

/-- words are quoted as they are -/
theorem toList_quote {s : String} (h : Wordlike s) :
    (Text.quote s).toList = '\'' :: (s.toList ++ ['\'']) := by
  have hmark : Text.quoteMark s.toList = '\'' := by
    have hnone : '\'' ∉ s.toList := fun hmem => absurd (h.2 _ hmem) (by decide)
    simp [Text.quoteMark, hnone]
  have hsame : ∀ cs : List Char, (∀ c ∈ cs, Lexeme.isNameChar c = true) →
      cs.flatMap (Text.escapeChar '\'') = cs := by
    intro cs hcs
    induction cs with
    | nil => rfl
    | cons c cs ih =>
      obtain ⟨hc, hcs⟩ := List.forall_mem_cons.1 hcs
      rw [List.flatMap_cons, escapeChar_nameChar hc, ih hcs]
      rfl
  rw [Text.quote, String.toList_ofList, Text.quoteChars, hmark, hsame s.toList h.2]

/-- a word or a number -/
inductive Plain : Value → Prop
  | word {s : String} : Wordlike s → Plain (.str s)
  | number (n : Nat) : Plain (.int n)

theorem toList_quoted_word {s : String} (h : Wordlike s) :
    (Value.str s).quoted.toList = '\'' :: (s.toList ++ ['\'']) := toList_quote h

theorem toList_quoted_number (n : Nat) : (Value.int n).quoted.toList = Nat.toDigits 10 n :=
  Text.toList_intText n

namespace Plain

variable {v w : Value}

theorem chars (h : Plain v) : ∀ c ∈ v.quoted.toList, Lexeme.isNameChar c = true ∨ c = '\'' := by
  intro c hc
  cases h with
  | word hs =>
    rw [toList_quoted_word hs] at hc
    simp only [List.mem_cons, List.mem_append, List.not_mem_nil, or_false] at hc
    rcases hc with hc | hc | hc
    · exact .inr hc
    · exact .inl (hs.2 c hc)
    · exact .inr hc
  | number n =>
    rw [toList_quoted_number] at hc
    exact .inl (Generator.isNameChar_of_isDigit (Text.isDigit_of_mem_toDigits hc))

theorem not_mem (h : Plain v) {c : Char} (hc : Lexeme.isNameChar c = false) (hquote : c ≠ '\'') :
    c ∉ v.quoted.toList := by
  intro hmem
  rcases h.chars c hmem with hname | rfl
  · exact Bool.false_ne_true (hc.symm.trans hname)
  · exact hquote rfl

theorem quoted_inj (h : Plain v) (h' : Plain w) (heq : v.quoted.toList = w.quoted.toList) :
    v = w := by
  have hdigit : ∀ (s : String) (n : Nat), Wordlike s →
      (Value.str s).quoted.toList ≠ (Value.int n).quoted.toList := by
    intro s n hs hmix
    rw [toList_quoted_word hs, toList_quoted_number] at hmix
    have hmem : '\'' ∈ Nat.toDigits 10 n := hmix ▸ List.mem_cons_self
    exact absurd (Text.isDigit_of_mem_toDigits hmem) (by decide)
  cases h with
  | @word s hs =>
    cases h' with
    | @word t ht =>
      rw [toList_quoted_word hs, toList_quoted_word ht, List.cons_inj_right,
        List.append_cancel_right_eq] at heq
      rw [String.ext heq]
    | number n => exact absurd heq (hdigit s n hs)
  | number n =>
    cases h' with
    | @word t ht => exact absurd heq.symm (hdigit t n ht)
    | number m =>
      rw [toList_quoted_number, toList_quoted_number] at heq
      rw [Text.toDigits_inj heq]

end Plain

/-! ## what rows show -/

/-- a word, or a list or tuple of words and numbers -/
inductive Legible : Value → Prop
  | word {s : String} : Wordlike s → Legible (.str s)
  | list {x : Value} {xs : List Value} : (∀ y ∈ x :: xs, Plain y) → Legible (.list (x :: xs))
  | tuple {x y : Value} {xs : List Value} : (∀ z ∈ x :: y :: xs, Plain z) →
      Legible (.tuple (x :: y :: xs))

/-- items with commas between them and a bracket after them -/
def itemChars (close : Char) : List Value → List Char
  | [] => [close]
  | [x] => x.quoted.toList ++ [close]
  | x :: y :: xs => x.quoted.toList ++ ',' :: ' ' :: itemChars close (y :: xs)

theorem toList_items (close : Char) (x : Value) (xs : List Value) :
    (", ".intercalate (Value.quoted.quotedAll (x :: xs))).toList ++ [close] =
      itemChars close (x :: xs) := by
  induction xs generalizing x with
  | nil => rfl
  | cons y xs ih =>
    have hcomma : ", ".toList = [',', ' '] := by decide
    have hstep : ", ".intercalate (Value.quoted.quotedAll (x :: y :: xs)) =
        x.quoted ++ ", " ++ ", ".intercalate (Value.quoted.quotedAll (y :: xs)) :=
          String.intercalate_cons_cons
    rw [hstep, String.toList_append, String.toList_append, List.append_assoc, ih]
    simp only [hcomma, itemChars, List.append_assoc, List.cons_append, List.nil_append]

theorem toList_text_list (x : Value) (xs : List Value) :
    (Value.list (x :: xs)).text.toList = '[' :: itemChars ']' (x :: xs) := by
  have htext : (Value.list (x :: xs)).text =
      "[" ++ ", ".intercalate (Value.quoted.quotedAll (x :: xs)) ++ "]" := rfl
  rw [htext, String.toList_append, String.toList_append, List.append_assoc]
  exact congrArg (List.cons '[') (toList_items ']' x xs)

theorem toList_text_tuple (x y : Value) (xs : List Value) :
    (Value.tuple (x :: y :: xs)).text.toList = '(' :: itemChars ')' (x :: y :: xs) := by
  have htext : (Value.tuple (x :: y :: xs)).text =
      "(" ++ ", ".intercalate (Value.quoted.quotedAll (x :: y :: xs)) ++ ")" := rfl
  rw [htext, String.toList_append, String.toList_append, List.append_assoc]
  exact congrArg (List.cons '(') (toList_items ')' x (y :: xs))

theorem itemChars_inj {close : Char} (hclose : close = ']' ∨ close = ')') {x y : Value}
    {xs ys : List Value} (hx : ∀ z ∈ x :: xs, Plain z) (hy : ∀ z ∈ y :: ys, Plain z)
    (h : itemChars close (x :: xs) = itemChars close (y :: ys)) : x :: xs = y :: ys := by
  have hbracket : ∀ {v : Value}, Plain v → close ∉ v.quoted.toList := by
    intro v hv
    rcases hclose with rfl | rfl
    · exact hv.not_mem (by decide) (by decide)
    · exact hv.not_mem (by decide) (by decide)
  have hcomma : ∀ {v : Value}, Plain v → ',' ∉ v.quoted.toList :=
    fun hv => hv.not_mem (by decide) (by decide)
  have hmix : close ≠ ',' := by
    rcases hclose with rfl | rfl <;> decide
  induction xs generalizing x y ys with
  | nil =>
    obtain ⟨hx, -⟩ := List.forall_mem_cons.1 hx
    cases ys with
    | nil =>
      obtain ⟨hy, -⟩ := List.forall_mem_cons.1 hy
      rw [itemChars, itemChars, List.append_cancel_right_eq] at h
      rw [hx.quoted_inj hy h]
    | cons z zs =>
      obtain ⟨hy, -⟩ := List.forall_mem_cons.1 hy
      exact absurd (append_border_inj (hbracket hy) (hcomma hx) h).2.1 hmix
  | cons x' xs ih =>
    obtain ⟨hx, hxs⟩ := List.forall_mem_cons.1 hx
    cases ys with
    | nil =>
      obtain ⟨hy, -⟩ := List.forall_mem_cons.1 hy
      exact absurd (append_border_inj (hcomma hy) (hbracket hx) h).2.1.symm hmix
    | cons y' ys =>
      obtain ⟨hy, hys⟩ := List.forall_mem_cons.1 hy
      obtain ⟨hfirst, -, hrest⟩ := append_border_inj (hcomma hy) (hcomma hx) h
      rw [hx.quoted_inj hy hfirst, ih hxs hys (List.cons.inj hrest).2]

namespace Legible

variable {v w : Value}

theorem itemChars_clean {close c : Char} (hclose : c ≠ close) (hname : Lexeme.isNameChar c = false)
    (hquote : c ≠ '\'') (hcomma : c ≠ ',') (hblank : c ≠ ' ') {xs : List Value}
    (h : ∀ x ∈ xs, Plain x) : c ∉ itemChars close xs := by
  fun_induction itemChars close xs with
  | case1 => simpa using hclose
  | case2 x =>
    have hx := (h x List.mem_cons_self).not_mem hname hquote
    simp [hx, hclose]
  | case3 x y xs ih =>
    obtain ⟨hx, hxs⟩ := List.forall_mem_cons.1 h
    have hfirst := hx.not_mem hname hquote
    simp [hfirst, hcomma, hblank, ih hxs]

theorem oneLine (h : Legible v) : '\n' ∉ v.text.toList := by
  cases h with
  | word hs => exact fun hmem => absurd (hs.2 _ hmem) (by decide)
  | list hx =>
    rw [toList_text_list]
    simpa using itemChars_clean (by decide) (by decide) (by decide) (by decide) (by decide) hx
  | tuple hx =>
    rw [toList_text_tuple]
    simpa using itemChars_clean (by decide) (by decide) (by decide) (by decide) (by decide) hx

/-- a row shows something, and that does not begin with a blank -/
theorem start (h : Legible v) : ∃ c cs, v.text.toList = c :: cs ∧ c ≠ ' ' := by
  cases h with
  | @word s hs =>
    obtain ⟨c, cs, hcs⟩ := List.exists_cons_of_ne_nil hs.1
    refine ⟨c, cs, hcs, ?_⟩
    rintro rfl
    exact absurd (hs.2 ' ' (hcs ▸ List.mem_cons_self)) (by decide)
  | list _ => exact ⟨_, _, toList_text_list _ _, by decide⟩
  | tuple _ => exact ⟨_, _, toList_text_tuple _ _ _, by decide⟩

theorem text_inj (h : Legible v) (h' : Legible w) (heq : v.text.toList = w.text.toList) :
    v = w := by
  have hword : ∀ {s : String} {c : Char} {cs : List Char}, Wordlike s → s.toList = c :: cs →
      Lexeme.isNameChar c = true := fun hs hcs => hs.2 _ (hcs ▸ List.mem_cons_self)
  cases h with
  | word hs =>
    cases h' with
    | word ht => exact congrArg Value.str (String.ext heq)
    | list _ => exact absurd (hword hs (heq.trans (toList_text_list _ _))) (by decide)
    | tuple _ => exact absurd (hword hs (heq.trans (toList_text_tuple _ _ _))) (by decide)
  | list hx =>
    rw [toList_text_list] at heq
    cases h' with
    | word ht => exact absurd (hword ht heq.symm) (by decide)
    | list hy =>
      rw [toList_text_list] at heq
      rw [itemChars_inj (.inl rfl) hx hy (List.cons.inj heq).2]
    | tuple _ =>
      rw [toList_text_tuple] at heq
      exact absurd (List.cons.inj heq).1 (by decide)
  | tuple hx =>
    rw [toList_text_tuple] at heq
    cases h' with
    | word ht => exact absurd (hword ht heq.symm) (by decide)
    | list _ =>
      rw [toList_text_list] at heq
      exact absurd (List.cons.inj heq).1 (by decide)
    | tuple hy =>
      rw [toList_text_tuple] at heq
      rw [itemChars_inj (.inr rfl) hx hy (List.cons.inj heq).2]

end Legible

/-! ## text of rows -/

/-- a row of an outline: its depth and the value that it shows -/
abbrev Row := Nat × Value

def rowChars (r : Row) : List Char := List.replicate (2 * r.1) ' ' ++ (r.2.text.toList ++ ['\n'])

def chars (rs : List Row) : List Char := rs.flatMap rowChars

@[simp] theorem chars_nil : chars [] = [] := rfl

@[simp] theorem chars_cons (r : Row) (rs : List Row) : chars (r :: rs) = rowChars r ++ chars rs :=
  List.flatMap_cons

@[simp] theorem chars_append (rs rs' : List Row) : chars (rs ++ rs') = chars rs ++ chars rs' :=
  List.flatMap_append

theorem rowChars_inj {r r' : Row} (h : Legible r.2) (h' : Legible r'.2) {cs cs' : List Char}
    (heq : rowChars r ++ cs = rowChars r' ++ cs') : r = r' ∧ cs = cs' := by
  obtain ⟨d, v⟩ := r
  obtain ⟨d', v'⟩ := r'
  have hline : ∀ (d : Nat) {v : Value}, Legible v →
      '\n' ∉ List.replicate (2 * d) ' ' ++ v.text.toList := by
    intro d v hv hmem
    rcases List.mem_append.1 hmem with hmem | hmem
    · exact absurd (List.eq_of_mem_replicate hmem) (by decide)
    · exact hv.oneLine hmem
  have hjoin : ∀ (d : Nat) (v : Value) (cs : List Char),
      rowChars (d, v) ++ cs = (List.replicate (2 * d) ' ' ++ v.text.toList) ++ '\n' :: cs := by
    intro d v cs
    simp [rowChars]
  rw [hjoin, hjoin] at heq
  -- the first line end ends the row, and the first character that is no blank its indentation
  obtain ⟨hrow, -, hrest⟩ := append_border_inj (hline d' h') (hline d h) heq
  obtain ⟨c, t, hc, hblank⟩ := h.start
  obtain ⟨c', t', hc', hblank'⟩ := h'.start
  rw [hc, hc'] at hrow
  have hborder : ∀ {c : Char} (n : Nat), c ≠ ' ' → c ∉ List.replicate n ' ' := by
    intro c n hne hmem
    exact hne (List.eq_of_mem_replicate hmem)
  obtain ⟨hdepth, hfirst, htext⟩ := append_border_inj (hborder _ hblank) (hborder _ hblank') hrow
  have hlength : 2 * d = 2 * d' := by simpa using congrArg List.length hdepth
  have hdd : d = d' := by omega
  have hvv : v = v' := h.text_inj h' (by rw [hc, hc', hfirst, htext])
  exact ⟨by rw [hdd, hvv], hrest⟩

/-- **Rows with the same text are the same rows.** -/
theorem chars_inj {rs rs' : List Row} (h : ∀ r ∈ rs, Legible r.2) (h' : ∀ r ∈ rs', Legible r.2)
    (heq : chars rs = chars rs') : rs = rs' := by
  have hne : ∀ (r : Row) (rs : List Row), chars (r :: rs) ≠ [] := by
    intro r rs
    simp [rowChars]
  induction rs generalizing rs' with
  | nil =>
    cases rs' with
    | nil => rfl
    | cons r' rs' => exact absurd heq.symm (hne r' rs')
  | cons r rs ih =>
    cases rs' with
    | nil => exact absurd heq (hne r rs)
    | cons r' rs' =>
      obtain ⟨hr, hrs⟩ := List.forall_mem_cons.1 h
      obtain ⟨hr', hrs'⟩ := List.forall_mem_cons.1 h'
      rw [chars_cons, chars_cons] at heq
      obtain ⟨hfirst, hrest⟩ := rowChars_inj hr hr' heq
      rw [hfirst, ih hrs hrs' hrest]

end Pl0Kit.Outline
