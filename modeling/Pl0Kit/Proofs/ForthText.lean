import Pl0Kit.Forth
import Pl0Kit.Proofs.ForthMachine
import Pl0Kit.Proofs.Fragment
import Pl0Kit.Proofs.Generated
import Pl0Kit.Proofs.Listing
import Pl0Kit.Proofs.Scopes

/-!
# Words of a Forth translation

The translator writes words in several ways, and what separates two of them may come from either
side. `Says es ws` is the property that carries the proof: after any text that is set off from what
follows, by a pending blank or by a blank at its end, the emissions `es` add the words `ws` and
leave the text set off again.  It is closed under concatenation, so each rule of the translator
needs one lemma.

* `ExprPrims`, `StatementItems`   the code of the parts of a program, as words of the machine;
* `Writes xs es is`               with the variables `xs`, the text of `es` reads as the words `is`;
* `Statement.forthWords`          the words of the code of a statement that could be names;
* `words_program`                 the words around the code of a program.
-/

namespace Pl0Kit.Text

/-! ## words of a text -/

/-- words are cut at blanks -/
theorem wordsFrom_blank {b : Char} (hb : isBlank b = true) (cur a rest : List Char) :
    wordsFrom cur (a ++ b :: rest) = wordsFrom cur a ++ wordsFrom [] rest := by
  induction a generalizing cur with
  | nil =>
    rw [List.nil_append, wordsFrom.eq_def cur (b :: rest), wordsFrom.eq_def cur []]
    simp only [hb, if_true]
    split <;> rfl
  | cons c a ih =>
    rw [List.cons_append, wordsFrom, wordsFrom]
    split
    · split
      · exact ih []
      · rw [ih [], List.cons_append]
    · exact ih (c :: cur)

theorem wordsOf_blank {b : Char} (hb : isBlank b = true) (a rest : List Char) :
    wordsOf (a ++ b :: rest) = wordsOf a ++ wordsOf rest :=
  wordsFrom_blank hb [] a rest

theorem wordsOf_eq {s : String} {ws : List String} (h : words s = ws) :
    wordsOf s.toList = ws.map String.toList := by
  have hid : String.toList ∘ String.ofList = id := funext fun _ => String.toList_ofList
  rw [← h, words, List.map_map, hid, List.map_id]

/-- a text that is one word -/
def Solid (w : String) : Prop := w.toList ≠ [] ∧ ∀ c ∈ w.toList, isBlank c = false

/-- a given text can be checked to be a word -/
theorem Solid.of_check {w : String}
    (h : (!w.toList.isEmpty && w.toList.all fun c => !isBlank c) = true) : Solid w := by
  rw [Bool.and_eq_true, List.all_eq_true] at h
  exact ⟨by simpa using h.1, fun c hc => by simpa using h.2 c hc⟩

theorem Solid.words {w : String} (h : Solid w) : words w = [w] := by
  have hwords := Machine.wordsFrom_append h.2 [] []
  rw [List.append_nil, List.append_nil] at hwords
  rw [Text.words, wordsOf, hwords, wordsFrom, if_neg (by simpa using h.1), List.reverse_reverse,
    List.map_singleton, String.ofList_toList]

theorem Solid.wordsOf_append {w : String} (h : Solid w) (rest : List Char) :
    wordsOf (w.toList ++ ' ' :: rest) = w.toList :: wordsOf rest := by
  rw [wordsOf_blank (by decide), wordsOf_eq h.words]
  rfl

theorem wordsOf_lead (rest : List Char) : wordsOf (' ' :: rest) = wordsOf rest :=
  wordsOf_blank (by decide) [] rest

theorem Solid.ofIdentifier {x : String} (h : Identifier x) : Solid x := by
  obtain ⟨c, cs, hx, -, -⟩ := h.start
  refine ⟨by rw [hx]; exact List.cons_ne_nil c cs, fun d hd => ?_⟩
  exact (Generator.plain_of_isNameChar (Generator.nameChars_of_identifier h d hd)).1

end Pl0Kit.Text

namespace Pl0Kit

/-- the words of the code of a condition that could be names of variables -/
def Condition.forthWords : Condition → List String
  | .odd _ => ["mod"]
  | .compare _ _ _ => []

/-- the words of the code of a statement that could be names of variables -/
def Statement.forthWords : Statement → List String
  | .assign _ _ | .call _ | .print _ => []
  | .block ss => all ss
  | .ifThen c s => c.forthWords ++ s.forthWords
  | .whileDo c s => "repeat" :: (c.forthWords ++ s.forthWords)
where
  all : List Statement → List String
    | [] => []
    | s :: ss => s.forthWords ++ all ss

/-- a name starts like one -/
theorem Identifier.ne_of_start {x w : String} (h : Identifier x)
    (hw : w.toList.head?.any Lexeme.isNameStart = false) : x ≠ w := by
  rintro rfl
  obtain ⟨c, cs, hx, hc, -⟩ := h.start
  simp [hx, hc] at hw

end Pl0Kit

namespace Pl0Kit.Forth

open Act Generator Text

/-! ## literals -/

theorem natural?_toDigits (n : Nat) : natural? (Nat.toDigits 10 n) = some n := by
  have hall : (Nat.toDigits 10 n).all Char.isDigit = true :=
    List.all_eq_true.2 fun c => isDigit_of_mem_toDigits
  rw [natural?, if_pos ⟨Nat.toDigits_ne_nil, hall⟩, Nat.ofDigitChars_ten_toDigits]

theorem literal?_nat (n : Nat) : literal? (intText n) = some (n : Int) := by
  rw [literal?, toList_intText]
  split
  · rename_i cs h
    have hminus : '-' ∈ Nat.toDigits 10 n := by
      rw [h]
      exact List.mem_cons_self
    exact absurd (isDigit_of_mem_toDigits hminus) (by decide)
  · rw [natural?_toDigits]
    rfl

theorem literal?_minus (n : Nat) : literal? ("-" ++ intText n) = some (-(n : Int)) := by
  rw [literal?, String.toList_append, toList_intText]
  show (natural? (Nat.toDigits 10 n)).map _ = _
  rw [natural?_toDigits]
  rfl

theorem literal?_identifier {x : String} (h : Identifier x) : literal? x = none := by
  obtain ⟨c, cs, hx, hc, -⟩ := h.start
  have hdigit : c.isDigit = false := by
    by_contra hd
    rw [Bool.not_eq_false] at hd
    rw [Lexeme.isNameStart, isAlpha_of_isDigit hd, Bool.false_or, beq_iff_eq] at hc
    subst hc
    exact absurd hd (by decide)
  have hminus : c ≠ '-' := by
    rintro rfl
    exact absurd hc (by decide)
  rw [literal?, hx]
  split
  · rename_i heq
    cases heq
    exact absurd rfl hminus
  · simp [natural?, hdigit]

theorem solid_nat (n : Nat) : Solid (intText n) := by
  obtain ⟨hne, hblank⟩ := plain_intText n
  exact ⟨hne, fun c hc => (hblank c hc).1⟩

theorem solid_minus (n : Nat) : Solid ("-" ++ intText n) := by
  refine ⟨by simp, fun c hc => ?_⟩
  rw [String.toList_append, List.mem_append] at hc
  rcases hc with hc | hc
  · exact (Solid.of_check (w := "-") rfl).2 c hc
  · exact (solid_nat n).2 c hc

/-! ## emissions -/

/-- whether a blank is pending after emissions -/
def pendingAfter : Bool → List Emission → Bool
  | pending, [] => pending
  | _, .say t :: es => pendingAfter (leavesBlank t) es
  | _, .sayLine _ :: es => pendingAfter false es
  | _, .put _ :: es => pendingAfter false es

theorem render_append (es ds : List Emission) (pending : Bool) :
    render pending (es ++ ds) = render pending es ++ render (pendingAfter pending es) ds := by
  induction es generalizing pending with
  | nil => rw [List.nil_append, render, String.empty_append, pendingAfter]
  | cons e es ih =>
    cases e <;> simp only [List.cons_append, render, pendingAfter, ih, String.append_assoc]

theorem pendingAfter_append (es ds : List Emission) (pending : Bool) :
    pendingAfter pending (es ++ ds) = pendingAfter (pendingAfter pending es) ds := by
  induction es generalizing pending with
  | nil => rfl
  | cons e es ih => cases e <;> exact ih _

/-- a text that is set off from what follows -/
def Gap (text : List Char) (pending : Bool) : Prop :=
  pending = true ∨ text = [] ∨ ∃ a b, text = a ++ [b] ∧ isBlank b = true

theorem Gap.words {text : List Char} (h : Gap text false) (rest : List Char) :
    wordsOf (text ++ rest) = wordsOf text ++ wordsOf rest := by
  obtain h | rfl | ⟨a, b, rfl, hb⟩ := h
  · cases h
  · rfl
  · rw [List.append_assoc, List.singleton_append, wordsOf_blank hb, wordsOf_blank hb a []]
    show wordsOf a ++ wordsOf rest = wordsOf a ++ [] ++ wordsOf rest
    rw [List.append_nil]

/-- a text that ends in a blank is set off -/
theorem Gap.ofEnd {text : List Char} (h : text.getLast?.any isBlank = true) (pre : List Char)
    (pending : Bool) : Gap (pre ++ text) pending := by
  obtain ⟨b, hlast, hb⟩ := (Option.any_eq_true _ _).1 h
  obtain ⟨a, rfl⟩ := List.getLast?_eq_some_iff.1 hlast
  exact .inr (.inr ⟨pre ++ a, b, by simp, hb⟩)

/-- emissions that add words to a text that is set off, and leave it set off -/
def Says (es : List Emission) (ws : List String) : Prop :=
  ∀ (text : List Char) (pending : Bool), Gap text pending →
    wordsOf (text ++ (render pending es).toList) = wordsOf text ++ ws.map String.toList ∧
      Gap (text ++ (render pending es).toList) (pendingAfter pending es)

namespace Says

variable {es ds : List Emission} {ws vs : List String} {t : String}

theorem nil : Says [] [] := by
  intro text pending h
  rw [render, String.toList_empty, List.append_nil]
  exact ⟨(List.append_nil _).symm, h⟩

theorem append (h : Says es ws) (h' : Says ds vs) : Says (es ++ ds) (ws ++ vs) := by
  intro text pending hgap
  obtain ⟨hwords, hgap₁⟩ := h text pending hgap
  obtain ⟨hwords', hgap₂⟩ := h' _ _ hgap₁
  rw [render_append, pendingAfter_append, String.toList_append, ← List.append_assoc,
    hwords', hwords, List.map_append, List.append_assoc]
  exact ⟨rfl, hgap₂⟩

/-- a saying is set off by what was before it, and sets off what follows -/
theorem say (h : words t = ws) : Says [.say t] ws := by
  intro text pending hgap
  have hend : ∀ pre : List Char, Gap (pre ++ t.toList) (leavesBlank t) := by
    intro pre
    cases hb : leavesBlank t with
    | true => exact .inl rfl
    | false =>
      refine Gap.ofEnd ?_ pre false
      rw [leavesBlank] at hb
      split at hb
      · rename_i c hc
        rw [hc, Option.any_some]
        simpa using (Bool.or_eq_false_iff.1 hb).2
      · cases hb
  cases pending with
  | true =>
    have hrender : (render true [.say t]).toList = ' ' :: t.toList := by
      simp [render]
    rw [hrender, wordsOf_blank (by decide), wordsOf_eq h]
    refine ⟨rfl, ?_⟩
    rw [List.append_cons]
    exact hend _
  | false =>
    have hrender : (render false [.say t]).toList = t.toList := by
      simp [render]
    rw [hrender, hgap.words, wordsOf_eq h]
    exact ⟨rfl, hend text⟩

/-- a line of its own -/
theorem sayLine (h : words (t ++ "\n") = ws) : Says [.sayLine t] ws := by
  intro text pending hgap
  have hend : ∀ pre : List Char, Gap (pre ++ (t ++ "\n").toList) false := fun pre =>
    Gap.ofEnd (by rw [String.toList_append]; simp [isBlank]) pre false
  cases pending with
  | true =>
    have hrender : (render true [.sayLine t]).toList = ' ' :: (t ++ "\n").toList := by
      simp [render]
    rw [hrender, wordsOf_blank (by decide), wordsOf_eq h, List.append_cons]
    exact ⟨rfl, hend _⟩
  | false =>
    have hrender : (render false [.sayLine t]).toList = (t ++ "\n").toList := by
      simp [render]
    rw [hrender, hgap.words, wordsOf_eq h]
    exact ⟨rfl, hend text⟩

theorem render_puts (ts : List String) : render false (ts.map .put) = String.join ts := by
  induction ts with
  | nil => rfl
  | cons t ts ih => rw [List.map_cons, render, ih, String.join_cons]

theorem pendingAfter_puts (ts : List String) : pendingAfter false (ts.map .put) = false := by
  induction ts with
  | nil => rfl
  | cons t ts ih => exact ih

/-- texts that are put one after the other, with blanks at both ends -/
theorem puts (t : String) (ts : List String) (hw : words (String.join (t :: ts)) = ws)
    (hstart : (String.join (t :: ts)).toList.head?.any isBlank = true)
    (hend : (String.join (t :: ts)).toList.getLast?.any isBlank = true) :
    Says ((t :: ts).map .put) ws := by
  intro text pending hgap
  have hrender : render pending ((t :: ts).map .put) = String.join (t :: ts) :=
    render_puts (t :: ts)
  have hpending : pendingAfter pending ((t :: ts).map .put) = false := pendingAfter_puts ts
  obtain ⟨b, hhead, hb⟩ := (Option.any_eq_true _ _).1 hstart
  obtain ⟨rest, hrest⟩ := List.head?_eq_some_iff.1 hhead
  have hwords : wordsOf (b :: rest) = wordsOf rest := wordsOf_blank hb [] rest
  rw [hrender, hpending]
  refine ⟨?_, Gap.ofEnd hend text false⟩
  rw [hrest, wordsOf_blank hb, ← hwords, ← hrest, wordsOf_eq hw]

/-- a text with blanks at both ends -/
theorem put (hw : words t = ws) (hstart : t.toList.head?.any isBlank = true)
    (hend : t.toList.getLast?.any isBlank = true) : Says [.put t] ws := by
  have hjoin : String.join [t] = t := by
    rw [String.join_cons, String.join_nil, String.append_empty]
  exact puts t [] (by rwa [hjoin]) (by rwa [hjoin]) (by rwa [hjoin])

end Says

/-! ## words of the machine and names of variables -/

/-- a word with the shape of a name; two words of the vocabulary have it -/
def nameShaped (w : String) : Bool :=
  w.toList.head?.any Lexeme.isNameStart &&
    (Keyword.ofWord? (String.ofList (w.toList.map Char.toUpper))).isNone

theorem nameShaped_identifier {x : String} (h : Identifier x) : nameShaped x = true := by
  obtain ⟨c, cs, hx, hc, -⟩ := h.start
  rw [nameShaped, h.plain, hx]
  simp [hc]

theorem standard?_identifier {w : String} {t : Word} (h : Identifier w)
    (ht : Word.standard? w = some t) : w = "mod" ∨ w = "repeat" := by
  have hvocabulary : ∀ e ∈ vocabulary, nameShaped e.1 = true → e.1 = "mod" ∨ e.1 = "repeat" := by
    decide
  rw [Word.standard?, literal?_identifier h] at ht
  obtain ⟨l₁, l₂, hsplit, -⟩ := List.lookup_eq_some_iff.1 ht
  exact hvocabulary (w, t) (by simp [hsplit]) (nameShaped_identifier h)

section Names

variable {xs : List String} (hxs : ∀ x ∈ xs, Identifier x)

include hxs

theorem dictionary_literal {w : String} {n : Int} (h : literal? w = some n) :
    dictionary xs w = none := by
  refine if_neg fun hw => ?_
  rw [literal?_identifier (hxs w hw)] at h
  cases h

theorem dictionary_standard {w : String} {t : Word} (h : Word.standard? w = some t)
    (hw : w ∉ ["mod", "repeat"]) : dictionary xs w = none := by
  refine if_neg fun hmem => hw ?_
  simpa using standard?_identifier (hxs w hmem) h

theorem reads_literal {w : String} {n : Int} (h : literal? w = some n) :
    Reads (dictionary xs) [w] [.prim (.lit n)] :=
  .word (dictionary_literal hxs h) (by rw [Word.standard?, h])

theorem reads_standard {w : String} {t : Word} (h : Word.standard? w = some t)
    (hw : w ∉ ["mod", "repeat"]) : Reads (dictionary xs) [w] [t] :=
  .word (dictionary_standard hxs h hw) h

theorem reads_variable {x : String} (hx : x ∈ xs) :
    Reads (dictionary xs) [x] [.prim (.lit (xs.idxOf x))] :=
  .address ((hxs x hx).ne_of_start rfl) (if_pos hx)

end Names

/-- with the variables `xs`, the text of the emissions `es` reads as the words `is` -/
def Writes (xs : List String) (es : List Emission) (is : List Word) : Prop :=
  ∃ ws, Says es ws ∧ Reads (dictionary xs) ws is

namespace Writes

variable {xs : List String} {es ds : List Emission} {is js : List Word} {t : String}

theorem nil : Writes xs [] [] := ⟨[], .nil, .nil⟩

theorem append (h : Writes xs es is) (h' : Writes xs ds js) : Writes xs (es ++ ds) (is ++ js) := by
  obtain ⟨ws, hs, hr⟩ := h
  obtain ⟨vs, hs', hr'⟩ := h'
  exact ⟨ws ++ vs, hs.append hs', hr.append hr'⟩

/-- a variable and the access to it, between blanks -/
theorem says_access {x a : String} (hx : Solid x) (ha : Solid a) :
    Says ([" ", x, " ", a, " "].map .put) [x, a] := by
  have htext : (String.join [" ", x, " ", a, " "]).toList =
      ' ' :: (x.toList ++ ' ' :: (a.toList ++ [' '])) := by
    simp [String.join_cons]
  refine Says.puts _ _ ?_ ?_ ?_
  · rw [words, htext, wordsOf_lead, hx.wordsOf_append, ha.wordsOf_append]
    show [String.ofList x.toList, String.ofList a.toList] = [x, a]
    rw [String.ofList_toList, String.ofList_toList]
  · rw [htext]
    rfl
  · rw [htext, List.getLast?_cons, List.getLast?_append, List.getLast?_cons, List.getLast?_append]
    rfl

variable (hxs : ∀ x ∈ xs, Identifier x)

include hxs

theorem say (w : String) {i : Word} (hw : words t = [w]) (hi : Word.standard? w = some i)
    (hname : w ∉ ["mod", "repeat"]) : Writes xs [.say t] [i] :=
  ⟨[w], .say hw, reads_standard hxs hi hname⟩

theorem put (w : String) {i : Word} (hw : words t = [w]) (hi : Word.standard? w = some i)
    (hname : w ∉ ["mod", "repeat"]) (hstart : t.toList.head?.any isBlank = true)
    (hend : t.toList.getLast?.any isBlank = true) : Writes xs [.put t] [i] :=
  ⟨[w], .put hw hstart hend, reads_standard hxs hi hname⟩

/-- a number, set off by a blank -/
theorem number (n : Nat) : Writes xs [.put " ", .say (intText n)] [.prim (.lit n)] := by
  have hblank : Says [.put " "] [] := .put rfl rfl rfl
  have hsay : Says [.say (intText n)] [intText n] := .say (solid_nat n).words
  exact ⟨_, hblank.append hsay, reads_literal hxs (literal?_nat n)⟩

theorem negative (n : Nat) : Writes xs [.say ("-" ++ intText n)] [.prim (.lit (-n))] :=
  ⟨["-" ++ intText n], .say (solid_minus n).words, reads_literal hxs (literal?_minus n)⟩

/-- a constant between blanks -/
theorem constant (n : Nat) : Writes xs [.put (" " ++ intText n ++ " ")] [.prim (.lit n)] := by
  have htext : (" " ++ intText n ++ " ").toList = ' ' :: ((intText n).toList ++ [' ']) := by
    simp
  refine ⟨[intText n], .put ?_ ?_ ?_, reads_literal hxs (literal?_nat n)⟩
  · rw [words, htext, wordsOf_lead, (solid_nat n).wordsOf_append]
    show [String.ofList (intText n).toList] = [intText n]
    rw [String.ofList_toList]
  · rw [htext]
    rfl
  · rw [htext, List.getLast?_cons, List.getLast?_append]
    rfl

theorem fetch {x : String} (hx : x ∈ xs) :
    Writes xs ([" ", x, " ", "@", " "].map .put) [.prim (.lit (xs.idxOf x)), .prim .fetch] :=
  ⟨[x, "@"], says_access (.ofIdentifier (hxs x hx)) (.of_check rfl),
    (reads_variable hxs hx).append (reads_standard hxs rfl (by decide))⟩

theorem store {x : String} (hx : x ∈ xs) :
    Writes xs ([" ", x, " ", "!", " "].map .put) [.prim (.lit (xs.idxOf x)), .prim .store] :=
  ⟨[x, "!"], says_access (.ofIdentifier (hxs x hx)) (.of_check rfl),
    (reads_variable hxs hx).append (reads_standard hxs rfl (by decide))⟩

end Writes

/-! ## code of the parts of a program -/

def addPrim : AddOp → Prim
  | .plus => .add
  | .minus => .sub

mutual

/-- a minus sign goes into the number at the start of a single term, or is a multiplication -/
inductive ExprPrims (S : Scope) : Expr → List Prim → Prop
  | plain {sign : Option AddOp} {first : Term} {rest : List (AddOp × Term)} {ps qs : List Prim} :
      sign ≠ some .minus → TermPrims S first ps → TermsPrims S rest qs →
        ExprPrims S (.mk sign first rest) (ps ++ qs)
  | literal {n : Nat} {rest : List (MulOp × Factor)} {qs : List Prim} :
      FactorsPrims S rest qs →
        ExprPrims S (.mk (some .minus) (.mk (.number n) rest) []) (.lit (-n) :: qs)
  | negated {first : Term} {ps : List Prim} :
      TermPrims S first ps → ExprPrims S (.mk (some .minus) first []) (ps ++ [.lit (-1), .mul])

inductive TermsPrims (S : Scope) : List (AddOp × Term) → List Prim → Prop
  | nil : TermsPrims S [] []
  | cons {op : AddOp} {x : Term} {rest : List (AddOp × Term)} {ps qs : List Prim} :
      TermPrims S x ps → TermsPrims S rest qs →
        TermsPrims S ((op, x) :: rest) (ps ++ addPrim op :: qs)

inductive TermPrims (S : Scope) : Term → List Prim → Prop
  | mk {first : Factor} {rest : List (MulOp × Factor)} {ps qs : List Prim} :
      FactorPrims S first ps → FactorsPrims S rest qs → TermPrims S (.mk first rest) (ps ++ qs)

inductive FactorsPrims (S : Scope) : List (MulOp × Factor) → List Prim → Prop
  | nil : FactorsPrims S [] []
  | cons {x : Factor} {rest : List (MulOp × Factor)} {ps qs : List Prim} :
      FactorPrims S x ps → FactorsPrims S rest qs →
        FactorsPrims S ((.times, x) :: rest) (ps ++ .mul :: qs)

inductive FactorPrims (S : Scope) : Factor → List Prim → Prop
  | const {x : String} {n : Nat} : S.const x = some (n : Int) → FactorPrims S (.name x) [.lit n]
  | var {x : String} : S.const x = none → x ∈ S.vars →
      FactorPrims S (.name x) [.lit (S.vars.idxOf x), .fetch]
  | number {n : Nat} : FactorPrims S (.number n) [.lit n]
  | paren {e : Expr} {ps : List Prim} : ExprPrims S e ps → FactorPrims S (.paren e) ps

end

inductive ConditionPrims (S : Scope) : Condition → List Prim → Prop
  | odd {e : Expr} {ps : List Prim} :
      ExprPrims S e ps → ConditionPrims S (.odd e) (ps ++ [.lit 2, .mod, .lit 1, .rel .e])
  | compare {l r : Expr} {op : RelOp} {ps qs : List Prim} :
      ExprPrims S l ps → ExprPrims S r qs →
        ConditionPrims S (.compare l op r) (ps ++ (qs ++ [.rel op]))

mutual

/-- statements without calls -/
inductive StatementItems (S : Scope) : Statement → List Item → Prop
  | assign {x : String} {e : Expr} {ps : List Prim} :
      ExprPrims S e ps → S.const x = none → x ∈ S.vars →
        StatementItems S (.assign x e) ((ps ++ [Prim.lit (S.vars.idxOf x), .store]).map .prim)
  | block {ss : List Statement} {is : List Item} :
      StatementsItems S ss is → StatementItems S (.block ss) is
  | ifThen {c : Condition} {s : Statement} {ps : List Prim} {is : List Item} :
      ConditionPrims S c ps → StatementItems S s is →
        StatementItems S (.ifThen c s) (ps.map .prim ++ [.branch is])
  | whileDo {c : Condition} {s : Statement} {ps : List Prim} {is : List Item} :
      ConditionPrims S c ps → StatementItems S s is →
        StatementItems S (.whileDo c s) [.loop (ps.map .prim) is]
  | print {e : Expr} {ps : List Prim} :
      ExprPrims S e ps → StatementItems S (.print e) ((ps ++ [Prim.print]).map .prim)

inductive StatementsItems (S : Scope) : List Statement → List Item → Prop
  | nil : StatementsItems S [] []
  | cons {s : Statement} {ss : List Statement} {is js : List Item} :
      StatementItems S s is → StatementsItems S ss js → StatementsItems S (s :: ss) (is ++ js)

end

/-! ## what the rules emit -/

/-- a translator after more emissions -/
def Translator.after (t : Translator) (es : List Emission) : Translator :=
  { t with emissions := t.emissions ++ es }

@[simp] theorem after_nil (t : Translator) : t.after [] = t := by
  simp [Translator.after]

@[simp] theorem after_after (t : Translator) (es ds : List Emission) :
    (t.after es).after ds = t.after (es ++ ds) := by
  simp [Translator.after]

@[simp] theorem exec_emit (e : Emission) (t : Translator) :
    exec (emit e) t = (.ok (), t.after [e]) := rfl

/-- names of variables are identifiers and constants are natural numbers -/
structure Sound (S : Scope) : Prop where
  names : ∀ x ∈ S.vars, Identifier x
  numbers : ∀ x n, S.const x = some n → ∃ k : Nat, n = k

section Visit

variable {σ : Type} (R : Rules σ)

theorem exec_pair {α : Type} (x y : Value) (f : Spot σ × Spot σ → Act σ α) (s : σ) :
    exec ((R.spot (.tuple [x, y])).pair >>= f) s = exec (f (R.spot x, R.spot y)) s := rfl

theorem exec_listItem {α : Type} {xs : List Value} {i : Nat} {x : Value} (f : Spot σ → Act σ α)
    (s : σ) (h : xs[i]? = some x) :
    exec ((R.spot (.list xs)).item i >>= f) s = exec (f (R.spot x)) s := by
  have hitem : (R.spot (.list xs)).item i = pure (R.spot x) := by
    have hpart : (R.spot (.list xs)).parts[i]? = some (R.spot x) := by
      show (Site.surveyAll R.visit xs)[i]? = _
      rw [surveyAll_eq, List.getElem?_map, h]
      rfl
    rw [Spot.item, value_spot, hpart]
  rw [hitem]
  rfl

end Visit

/-- a rule for nodes with a fixed number of parts -/
theorem apply_exactly {tag : String} {n : Nat} {rule : List (Spot Translator) → ForthM Unit}
    (low : String) (args : List (Spot Translator)) (hl : tag.toLower = low)
    (hr : rules low = exactly n rule) (hn : args.length = n) :
    rules.apply (.str tag) args = (do rule args; pure .none) := by
  rw [exactly] at hr
  rw [apply_rule low args hl hr, if_neg (by simp [hn])]

/-! ## expressions -/

theorem run_name (x : String) :
    rules.run (nameValue x) = (do nameRule (rules.spot (.str x)); pure .none) := by
  rw [nameValue, run_tuple]
  exact apply_exactly "name" _ ruleNames.name rfl rfl

theorem run_number (n : Nat) : rules.run (Factor.number n).toValue =
    (do numberRule (rules.spot (.int n)); pure .none) := by
  rw [Factor.toValue, run_tuple]
  exact apply_exactly "number" _ ruleNames.number rfl rfl

theorem exec_negative (n : Nat) (t : Translator) :
    exec (rules.run (Factor.number n).toValue) { t with negate := true } =
      (.ok .none, { t.after [.say ("-" ++ intText n)] with negate := false }) := by
  rw [run_number]
  rfl

theorem exec_firstTerm (first : Term) (xs : List Value) (t : Translator) :
    exec (terms ((first.toValue :: xs).map rules.spot)) t =
      exec (do let _ ← rules.run first.toValue; terms (xs.map rules.spot)) t := by
  cases first
  rw [List.map_cons, terms, Term.toValue, exec_listItem _ _ _ rfl, value_spot]
  rfl

theorem run_expr (sign : Option AddOp) (first : Term) (rest : List (AddOp × Term)) :
    rules.run (Expr.mk sign first rest).toValue = (do
      expressionRule (rules.spot (signValue sign))
        ((first.toValue :: Expr.tailValues rest).map rules.spot)
      pure .none) := by
  rw [Expr.toValue, run_list, apply_rule "expression" _ ruleNames.expression rfl]
  rfl

theorem run_term (first : Factor) (rest : List (MulOp × Factor)) :
    rules.run (Term.mk first rest).toValue = (do
      let _ ← rules.run first.toValue
      factors ((Term.tailValues rest).map rules.spot)
      pure .none) := by
  rw [Term.toValue, run_list, apply_rule "term" _ ruleNames.term rfl]
  exact bind_assoc _ _ _

theorem exec_nextTerm (op : AddOp) (x : Term) (xs : List Value) (t : Translator) :
    exec (terms ((.tuple [.str op.word, x.toValue] :: xs).map rules.spot)) t = exec (do
      let _ ← rules.run x.toValue
      say (← wordFor operators (.str op.word))
      terms (xs.map rules.spot)) t := by
  rw [List.map_cons, terms, exec_item _ _ _ rfl, value_spot]
  cases op <;>
  · simp only [AddOp.word]
    rfl

theorem expressionRule_plain {sign : Option AddOp} (h : sign ≠ some .minus)
    (ts : List (Spot Translator)) : expressionRule (rules.spot (signValue sign)) ts = terms ts := by
  rw [expressionRule.eq_def, value_spot]
  rcases sign with _ | _ | _
  · rfl
  · rfl
  · exact absurd rfl h

/-- a minus sign is for single terms -/
theorem expressionRule_sum (s₁ s₂ : Spot Translator) (ts : List (Spot Translator)) :
    expressionRule (rules.spot (signValue (some .minus))) (s₁ :: s₂ :: ts) = throw .assertion := rfl

theorem exec_minusNumber (n : Nat) (rest : List (MulOp × Factor)) (t : Translator) :
    exec (expressionRule (rules.spot (signValue (some .minus)))
        [rules.spot (Term.mk (.number n) rest).toValue]) t =
      exec (terms [rules.spot (Term.mk (.number n) rest).toValue]) { t with negate := true } := by
  simp only [expressionRule, value_spot, signValue, AddOp.word, Term.toValue]
  rw [exec_listItem _ _ _ rfl, Factor.toValue, exec_item _ _ _ rfl]
  rfl

theorem exec_minusOther {first : Factor} (h : ∀ n, first ≠ .number n) (rest : List (MulOp × Factor))
    (t : Translator) :
    exec (expressionRule (rules.spot (signValue (some .minus)))
        [rules.spot (Term.mk first rest).toValue]) t =
      exec (do terms [rules.spot (Term.mk first rest).toValue]; say "-1 *") t := by
  simp only [expressionRule, value_spot, signValue, AddOp.word, Term.toValue]
  rw [exec_listItem _ _ _ rfl]
  cases first with
  | name x =>
    rw [Factor.toValue, nameValue, exec_item _ _ _ rfl]
    rfl
  | number n => exact absurd rfl (h n)
  | paren e =>
    cases e
    rw [Factor.toValue, Expr.toValue, exec_listItem _ _ _ rfl]
    rfl

/-! ## programs -/

/-- the emission that declares a variable -/
def variableLine (x : String) : Emission := .say ("variable " ++ x ++ "\n")

theorem says_variables {xs : List String} (h : ∀ x ∈ xs, Identifier x) :
    Says (xs.map variableLine) (xs.flatMap (["variable", ·])) ∧
      pendingAfter false (xs.map variableLine) = false := by
  induction xs with
  | nil => exact ⟨.nil, rfl⟩
  | cons x xs ih =>
    obtain ⟨hsaid, hpending⟩ := ih fun y hy => h y (List.mem_cons_of_mem x hy)
    have htext : ("variable " ++ x ++ "\n").toList =
        "variable".toList ++ ' ' :: (x.toList ++ ['\n']) := by
      simp
    have hwords : words ("variable " ++ x ++ "\n") = ["variable", x] := by
      have hx : Solid x := .ofIdentifier (h x List.mem_cons_self)
      have hvariable : Solid "variable" := .of_check rfl
      rw [words, htext, hvariable.wordsOf_append, wordsOf_blank (by decide), wordsOf_eq hx.words]
      show [String.ofList "variable".toList, String.ofList x.toList] = _
      rw [String.ofList_toList, String.ofList_toList]
    have hline : leavesBlank ("variable " ++ x ++ "\n") = false := by
      have hlast : ("variable " ++ x ++ "\n").toList.getLast? = some '\n' := by
        rw [String.toList_append]
        exact List.getLast?_concat
      rw [leavesBlank, hlast]
      rfl
    have hfirst : Says [variableLine x] ["variable", x] := .say hwords
    refine ⟨hfirst.append hsaid, ?_⟩
    show pendingAfter (leavesBlank ("variable " ++ x ++ "\n")) _ = false
    rw [hline, hpending]

/-- everything that is emitted for a program without procedures -/
def programEmissions (xs : List String) (es : List Emission) : List Emission :=
  xs.map variableLine ++ .put ": run " :: (es ++ [.put " ;\n", .sayLine "run\n"])

theorem words_program {xs ws : List String} {es : List Emission} (hx : ∀ x ∈ xs, Identifier x)
    (h : Says es ws) : words (render false (programEmissions xs es)) = textWords xs ws := by
  obtain ⟨hsaid, hpending⟩ := says_variables hx
  obtain ⟨hwords, hgap⟩ := hsaid [] false (.inr (.inl rfl))
  rw [hpending, List.nil_append] at hgap
  -- the definition is put after a line end, or at the start of the text
  have hstart : Gap ((render false (xs.map variableLine)).toList ++ ": run ".toList) false :=
    Gap.ofEnd rfl _ false
  have hclose : Says [.put " ;\n"] [";"] := .put rfl rfl rfl
  have hrun : Says [.sayLine "run\n"] ["run"] := .sayLine rfl
  obtain ⟨hrest, -⟩ := (h.append (hclose.append hrun)) _ _ hstart
  have htext : (render false (programEmissions xs es)).toList =
      (render false (xs.map variableLine)).toList ++ ": run ".toList ++
        (render false (es ++ ([.put " ;\n"] ++ [.sayLine "run\n"]))).toList := by
    rw [programEmissions, render_append, hpending, render, String.toList_append,
      String.toList_append, List.append_assoc]
    rfl
  have hdefine : wordsOf ": run ".toList = [":", "run"].map String.toList := rfl
  rw [List.nil_append] at hwords
  rw [words, htext, hrest, hgap.words, hwords, hdefine]
  have hid : String.ofList ∘ String.toList = id := funext fun _ => String.ofList_toList
  have hnone : wordsOf [] = ([] : List String).map String.toList := rfl
  rw [hnone, ← List.map_append, ← List.map_append, ← List.map_append, List.map_map, hid,
    List.map_id]
  simp [textWords]

/-- the table of names after declarations of constants -/
def defineNames (N : Table) (ds : List (String × Nat)) : Table :=
  ds.foldl (fun N d => N.put (.str d.1) (.tuple [constantKind, .int d.2])) N

def declareNames (N : Table) (xs : List String) : Table :=
  xs.foldl (fun N x => N.put (.str x) (.tuple [variableKind, .str x])) N

theorem exec_declareVariables (xs : List String) (t : Translator) :
    exec (declareVariables ((xs.map nameValue).map rules.spot)) t =
      (.ok (), { t with
        names := declareNames t.names xs
        emissions := t.emissions ++ xs.map variableLine }) := by
  induction xs generalizing t with
  | nil =>
    simp only [List.map_nil, List.append_nil]
    rfl
  | cons x xs ih =>
    rw [List.map_cons, List.map_cons, declareVariables, nameValue, exec_pair]
    refine (ih { t with
      names := t.names.put (.str x) (.tuple [variableKind, .str x])
      emissions := t.emissions ++ [variableLine x] }).trans ?_
    rw [List.append_assoc]
    rfl

theorem exec_defineConstants (ds : List (String × Nat)) (t : Translator) :
    ∃ vs, exec (visitNodes ((ds.map defineValue).map rules.spot)) t =
      (.ok vs, { t with names := defineNames t.names ds }) := by
  induction ds generalizing t with
  | nil => exact ⟨[], rfl⟩
  | cons d ds ih =>
    obtain ⟨vs, hvs⟩ :=
      ih { t with names := t.names.put (.str d.1) (.tuple [constantKind, .int d.2]) }
    refine ⟨.none :: vs, ?_⟩
    have hd : exec (rules.run (defineValue d)) t =
        (.ok .none,
          { t with names := t.names.put (.str d.1) (.tuple [constantKind, .int d.2]) }) := by
      rw [defineValue, run_tuple, apply_exactly "define" _ (by decide +kernel) rfl rfl]
      rfl
    rw [List.map_cons, visitNodes_cons rfl, exec_then hd, exec_then hvs]
    rfl

theorem exec_constants (consts : Option (List (String × Nat))) (xs : List Value) (t : Translator)
    {vs : List Value} {t' : Translator}
    (h : exec (visitNodes ((constsValue consts :: xs).map rules.spot)) t = (.ok vs, t')) :
    ∃ vs', exec (visitNodes (xs.map rules.spot))
      { t with names := defineNames t.names (consts.getD []) } = (.ok vs', t') := by
  cases consts with
  | none =>
    rw [constsValue, visitNodes_skip rfl] at h
    exact ⟨vs, h⟩
  | some ds =>
    rw [constsValue, visitNodes_cons rfl, run_list, apply_none "constants" _ ruleNames.consts rfl]
      at h
    obtain ⟨v, t₁, h₁, h⟩ := exec_bind_ok.1 h
    obtain ⟨ws, h₁⟩ := visitAll_ok h₁
    obtain ⟨us, hus⟩ := exec_defineConstants ds t
    rw [List.map_cons, List.drop_one, List.tail_cons, hus] at h₁
    cases h₁
    obtain ⟨vs', t₂, h₂, hend⟩ := exec_bind_ok.1 h
    cases hend
    exact ⟨vs', h₂⟩

theorem exec_variables (vars : Option (List String)) (xs : List Value) (t : Translator)
    {vs : List Value} {t' : Translator}
    (h : exec (visitNodes ((varsValue vars :: xs).map rules.spot)) t = (.ok vs, t')) :
    ∃ vs', exec (visitNodes (xs.map rules.spot))
      { t with
        names := declareNames t.names (vars.getD [])
        emissions := t.emissions ++ (vars.getD []).map variableLine } = (.ok vs', t') := by
  cases vars with
  | none =>
    rw [varsValue, visitNodes_skip rfl] at h
    refine ⟨vs, ?_⟩
    rw [Option.getD_none, List.map_nil, List.append_nil]
    exact h
  | some ys =>
    rw [varsValue, visitNodes_cons rfl, run_list, apply_rule "variables" _ ruleNames.vars rfl] at h
    obtain ⟨v, t₁, h₁, h⟩ := exec_bind_ok.1 h
    rw [List.map_cons, List.drop_one, List.tail_cons, exec_then (exec_declareVariables ys t)] at h₁
    cases h₁
    obtain ⟨vs', t₂, h₂, hend⟩ := exec_bind_ok.1 h
    cases hend
    exact ⟨vs', h₂⟩

end Pl0Kit.Forth
