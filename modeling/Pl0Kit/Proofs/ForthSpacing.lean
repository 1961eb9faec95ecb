import Mathlib.Algebra.GroupWithZero.Nat
import Mathlib.Data.List.Forall2
import Pl0Kit.Proofs.ForthEmissions

/-!
# Blanks between the words of a Forth text

Two emissions run together if the text of the first ends in a word, that of the second starts with
one, and no blank is put between them.  Each such place makes one word of two (`words_render`).

What is written for a statement is a row of pieces with blanks at both ends, and of calls.  A call
from outside the procedure called leaves its name at the end of the text, with a blank only for what
is said next; one from inside puts the first variable to be saved without a blank before it.  So
words run together exactly where a call of the second kind comes right after one of the first
(`words_apart_iff`).
-/

namespace Pl0Kit.Text

/-! ## words of two texts -/

def endsInWord (t : String) : Bool := t.toList.getLast?.any (!isBlank ·)
def startsWithWord (t : String) : Bool := t.toList.head?.any (!isBlank ·)

theorem endsInWord_append (s : String) {t : String} (h : t ≠ "") :
    endsInWord (s ++ t) = endsInWord t := by
  have hlast := List.getLast?_eq_some_getLast fun hnil => h (String.toList_eq_nil_iff.1 hnil)
  simp [endsInWord, List.getLast?_append, hlast]

theorem startsWithWord_append {s : String} (h : s ≠ "") (t : String) :
    startsWithWord (s ++ t) = startsWithWord s := by
  obtain ⟨c, cs, hc⟩ : ∃ c cs, s.toList = c :: cs :=
    List.exists_cons_of_ne_nil fun hnil => h (String.toList_eq_nil_iff.1 hnil)
  simp [startsWithWord, hc]

theorem Solid.ne_empty {w : String} (h : Solid w) : w ≠ "" := by
  rintro rfl
  exact h.1 rfl

theorem Solid.startsWithWord {w : String} (h : Solid w) : startsWithWord w = true := by
  obtain ⟨c, cs, hc⟩ := List.exists_cons_of_ne_nil h.1
  have hblank : isBlank c = false := h.2 c (hc ▸ List.mem_cons_self)
  simp [Text.startsWithWord, hc, hblank]

theorem Solid.endsInWord {w : String} (h : Solid w) : endsInWord w = true := by
  have hblank : isBlank (w.toList.getLast h.1) = false := h.2 _ (List.getLast_mem h.1)
  simp [Text.endsInWord, List.getLast?_eq_some_getLast h.1, hblank]

/-- a word goes on if the next character is no blank, so its start does not count -/
theorem length_wordsFrom {cur cur' : List Char} (h : cur ≠ []) (h' : cur' ≠ []) (cs : List Char) :
    (wordsFrom cur cs).length = (wordsFrom cur' cs).length := by
  induction cs generalizing cur cur' with
  | nil => simp [wordsFrom, h, h']
  | cons c cs ih =>
    rw [wordsFrom, wordsFrom]
    split
    · simp [h, h']
    · exact ih (List.cons_ne_nil c cur) (List.cons_ne_nil c cur')

theorem length_wordsFrom_joined {c d : Char} (hc : isBlank c = false) (hd : isBlank d = false)
    (cur a b : List Char) :
    (wordsFrom cur (a ++ c :: d :: b)).length + 1 =
      (wordsFrom cur (a ++ [c])).length + (wordsFrom [] (d :: b)).length := by
  induction a generalizing cur with
  | nil =>
    have hone : wordsFrom cur [c] = [(c :: cur).reverse] := by simp [wordsFrom, hc]
    rw [List.nil_append, List.nil_append, hone]
    simp only [wordsFrom, hc, hd, Bool.false_eq_true, if_false]
    rw [length_wordsFrom (List.cons_ne_nil d (c :: cur)) (List.cons_ne_nil d []),
      List.length_singleton, Nat.add_comm]
  | cons x a ih =>
    have hx : ∀ r, wordsFrom cur (x :: r) = if isBlank x then
        if cur.isEmpty then wordsFrom [] r else cur.reverse :: wordsFrom [] r
        else wordsFrom (x :: cur) r := fun _ => rfl
    rw [List.cons_append, List.cons_append, hx, hx]
    split
    · split
      · exact ih []
      · rw [List.length_cons, List.length_cons, ih [], Nat.add_right_comm]
    · exact ih (x :: cur)

theorem words_append_eq {s t : String}
    (h : wordsOf (s.toList ++ t.toList) = wordsOf s.toList ++ wordsOf t.toList) :
    words (s ++ t) = words s ++ words t := by
  rw [words, String.toList_append, h, List.map_append]
  rfl

/-- words that do not meet -/
theorem words_append_apart {s t : String} (h : (endsInWord s && startsWithWord t) = false) :
    words (s ++ t) = words s ++ words t := by
  refine words_append_eq ?_
  rcases Bool.and_eq_false_iff.1 h with h | h
  · have hgap : Forth.Gap s.toList false := by
      rw [endsInWord] at h
      rcases s.toList.eq_nil_or_concat with hs | ⟨a, c, hs⟩
      · exact .inr (.inl hs)
      · rw [List.concat_eq_append] at hs
        refine .inr (.inr ⟨a, c, hs, ?_⟩)
        simpa [hs] using h
    exact hgap.words t.toList
  · rw [startsWithWord] at h
    cases ht : t.toList with
    | nil => simp [wordsOf, wordsFrom]
    | cons b rest =>
      have hb : isBlank b = true := by simpa [ht] using h
      have hlead : wordsOf (b :: rest) = wordsOf rest := wordsOf_blank hb [] rest
      rw [wordsOf_blank hb, hlead]

theorem words_append_ends {s : String} (h : endsInWord s = false) (t : String) :
    words (s ++ t) = words s ++ words t := words_append_apart (by rw [h, Bool.false_and])

theorem words_append_starts (s : String) {t : String} (h : startsWithWord t = false) :
    words (s ++ t) = words s ++ words t := words_append_apart (by rw [h, Bool.and_false])

/-- a word that goes on from one text to the next -/
theorem length_words_joined {s t : String} (h : (endsInWord s && startsWithWord t) = true) :
    (words (s ++ t)).length + 1 = (words s).length + (words t).length := by
  obtain ⟨hs, ht⟩ := Bool.and_eq_true_iff.1 h
  obtain ⟨c, hlast, hc⟩ := (Option.any_eq_true _ _).1 hs
  obtain ⟨d, hhead, hd⟩ := (Option.any_eq_true _ _).1 ht
  obtain ⟨a, ha⟩ := List.getLast?_eq_some_iff.1 hlast
  obtain ⟨b, hb⟩ := List.head?_eq_some_iff.1 hhead
  have hjoined := length_wordsFrom_joined (by simpa using hc) (by simpa using hd) [] a b
  simp only [words, List.length_map, String.toList_append, ha, hb, List.append_assoc,
    List.singleton_append]
  exact hjoined

end Pl0Kit.Text

namespace Pl0Kit

/-- the calls of a statement in their order, with `none` where other words are written -/
def Statement.trail : Statement → List (Option String)
  | .assign _ _ => [none]
  | .call q => [some q]
  | .block ss => trailAll ss
  | .ifThen _ s => none :: (s.trail ++ [none])
  | .whileDo _ s => none :: (s.trail ++ [none])
  | .print _ => [none]
where
  trailAll : List Statement → List (Option String)
    | [] => []
    | s :: ss => s.trail ++ trailAll ss

mutual

theorem Statement.mem_symbols_of_trail {q : String} : ∀ {s : Statement}, some q ∈ s.trail →
    Symbol.name q ∈ s.symbols
  | .assign _ _, h => by simp [trail] at h
  | .call _, h => by simpa [trail, symbols, Symbol.ofKeyword] using h
  | .block [], h => by simp [trail, trail.trailAll] at h
  | .block (s :: ss), h => by
    rcases List.mem_append.1 h with h | h
    · simp [symbols, mem_symbols_of_trail h]
    · simp [symbols, mem_laterSymbols_of_trail h]
  | .ifThen _ s, h => by
    have hs : some q ∈ s.trail := by simpa [trail] using h
    simp [symbols, mem_symbols_of_trail hs]
  | .whileDo _ s, h => by
    have hs : some q ∈ s.trail := by simpa [trail] using h
    simp [symbols, mem_symbols_of_trail hs]
  | .print _, h => by simp [trail] at h

theorem Statement.mem_laterSymbols_of_trail {q : String} : ∀ {ss : List Statement},
    some q ∈ trail.trailAll ss → Symbol.name q ∈ symbols.laterSymbols ss
  | [], h => by simp [trail.trailAll] at h
  | s :: ss, h => by
    rcases List.mem_append.1 h with h | h
    · simp [symbols.laterSymbols, mem_symbols_of_trail h]
    · simp [symbols.laterSymbols, mem_laterSymbols_of_trail h]

end

end Pl0Kit

namespace Pl0Kit.Forth

open Generator Text

/-! ## emissions that run together -/

namespace Emission

def text : Emission → String
  | .say t => t
  | .sayLine t => t ++ "\n"
  | .put t => t

/-- a blank comes before what is said, if one is pending -/
def isSaid : Emission → Bool
  | .put _ => false
  | _ => true

/-- whether a blank is pending after it -/
def pending : Emission → Bool
  | .say t => leavesBlank t
  | _ => false

/-- the second of two emissions goes on with the last word of the first -/
def joins (e f : Emission) : Bool :=
  endsInWord e.text && startsWithWord f.text && !(e.pending && f.isSaid)

/-- starts with a word and has no blank put before it -/
def bare (e : Emission) : Bool := startsWithWord e.text && !e.isSaid

/-- a blank or a pending blank is behind it -/
def Closed (e : Emission) : Prop := e.pending = true ∨ endsInWord e.text = false

theorem joins_of_closed {e : Emission} (he : e.Closed) (f : Emission) :
    e.joins f = (endsInWord e.text && f.bare) := by
  unfold joins bare
  rcases he with he | he <;> simp [he, Bool.and_assoc]

theorem joins_of_ends {e : Emission} (he : endsInWord e.text = false) (f : Emission) :
    e.joins f = false := by
  rw [joins, he, Bool.false_and, Bool.false_and]

theorem closed_say (t : String) : (say t).Closed := by
  cases hb : leavesBlank t with
  | true => exact .inl hb
  | false =>
    refine .inr ?_
    rw [leavesBlank] at hb
    show t.toList.getLast?.any (!isBlank ·) = false
    split at hb
    · rename_i c hc
      rw [hc, Option.any_some]
      exact (Bool.or_eq_false_iff.1 hb).2
    · cases hb

end Emission

/-- how many elements are in relation to the next one -/
def adjacent {α : Type} (R : α → α → Bool) : List α → Nat
  | [] => 0
  | [_] => 0
  | a :: b :: as => (if R a b then 1 else 0) + adjacent R (b :: as)

theorem adjacent_eq_zero {α : Type} {R : α → α → Bool} {as : List α} :
    adjacent R as = 0 ↔ ∀ a b, [a, b] <:+: as → R a b = false := by
  induction as with
  | nil => simp [adjacent]
  | cons a as ih =>
    cases as with
    | nil => simp [adjacent, List.infix_cons_iff]
    | cons b as =>
      rw [adjacent, Nat.add_eq_zero_iff, ih]
      constructor
      · rintro ⟨hab, hrest⟩ c d hcd
        rcases List.infix_cons_iff.1 hcd with hcd | hcd
        · simp only [List.cons_prefix_cons] at hcd
          obtain ⟨rfl, rfl, -⟩ := hcd
          simpa using hab
        · exact hrest c d hcd
      · intro h
        have hab := h a b (List.IsPrefix.isInfix ⟨as, rfl⟩)
        exact ⟨by simp [hab], fun c d hcd => h c d (List.infix_cons hcd)⟩

/-- how many emissions run together with the next one -/
def joinsIn (es : List Emission) : Nat := adjacent Emission.joins es

/-- the words that each emission has on its own -/
def ownWords (es : List Emission) : List String := es.flatMap fun e => words e.text

theorem render_cons (pending : Bool) (e : Emission) (es : List Emission) :
    render pending (e :: es) =
      (if pending && e.isSaid then " " else "") ++ (e.text ++ render e.pending es) := by
  cases e <;> cases pending <;> simp [render, Emission.text, Emission.isSaid, Emission.pending,
    String.append_assoc]

theorem words_lead (pending : Bool) (t : String) :
    words ((if pending then " " else "") ++ t) = words t := by
  cases pending with
  | true => rw [if_pos rfl, words_append_ends rfl]; rfl
  | false => rw [if_neg (by decide), String.empty_append]

/-- the text of further emissions starts with a word if the first of them does, and no blank is put
before it -/
theorem startsWithWord_render (pending : Bool) {e : Emission} (he : e.text ≠ "")
    (es : List Emission) :
    startsWithWord (render pending (e :: es)) =
      (startsWithWord e.text && !(pending && e.isSaid)) := by
  rw [render_cons]
  cases hb : pending && e.isSaid with
  | true => simp [startsWithWord, isBlank]
  | false =>
    obtain ⟨c, cs, hc⟩ : ∃ c cs, e.text.toList = c :: cs :=
      List.exists_cons_of_ne_nil fun h => he (String.toList_eq_nil_iff.1 h)
    simp [startsWithWord, hc]

/-- **Words of emissions**: as many as they have on their own, less one for each two that run
together. -/
theorem words_render (pending : Bool) {es : List Emission} (h : ∀ e ∈ es, e.text ≠ "") :
    (words (render pending es)).length + joinsIn es = (ownWords es).length ∧
      (joinsIn es = 0 → words (render pending es) = ownWords es) := by
  induction es generalizing pending with
  | nil => exact ⟨rfl, fun _ => rfl⟩
  | cons e es ih =>
    obtain ⟨he, hes⟩ := List.forall_mem_cons.1 h
    obtain ⟨hlength, hwords⟩ := ih e.pending hes
    rw [render_cons, words_lead]
    cases es with
    | nil =>
      have hown : ownWords [e] = words e.text := by rw [ownWords, List.flatMap_singleton]
      rw [render, String.append_empty, hown]
      exact ⟨rfl, fun _ => rfl⟩
    | cons f es =>
      have hown : ownWords (e :: f :: es) = words e.text ++ ownWords (f :: es) := rfl
      have hjoins : e.joins f =
          (endsInWord e.text && startsWithWord (render e.pending (f :: es))) := by
        rw [startsWithWord_render _ (List.forall_mem_cons.1 hes).1, Emission.joins, Bool.and_assoc]
      rw [joinsIn] at hlength hwords
      rw [hown, joinsIn, adjacent, List.length_append]
      cases hj : e.joins f with
      | true =>
        rw [hj] at hjoins
        have hjoined := length_words_joined hjoins.symm
        refine ⟨by simp only [if_true]; omega, fun h0 => ?_⟩
        simp at h0
      | false =>
        rw [hj] at hjoins
        rw [words_append_apart hjoins.symm, List.length_append]
        refine ⟨by simp; omega, fun h0 => ?_⟩
        rw [hwords (by simpa using h0)]

/-! ## pieces of text -/

/-- one if the second list goes on with the last word of the first -/
def seam (as bs : List Emission) : Nat :=
  match as.getLast?, bs.head? with
  | some e, some f => if e.joins f then 1 else 0
  | _, _ => 0

variable {b l b' l' : Bool} {as bs : List Emission}

theorem joinsIn_append (as bs : List Emission) :
    joinsIn (as ++ bs) = joinsIn as + seam as bs + joinsIn bs := by
  induction as with
  | nil => simp [joinsIn, adjacent, seam]
  | cons e as ih =>
    cases as with
    | nil => cases bs <;> simp [joinsIn, adjacent, seam]
    | cons e' as =>
      have hseam : seam (e :: e' :: as) bs = seam (e' :: as) bs := by
        rw [seam, seam, List.getLast?_cons_cons]
      rw [hseam]
      simp only [joinsIn, List.cons_append, adjacent] at ih ⊢
      omega

theorem seam_eq_zero (h : ∀ e ∈ as.getLast?, ∀ f ∈ bs.head?, e.joins f = false) :
    seam as bs = 0 := by
  unfold seam
  split
  · rename_i e f he hf
    rw [h e he f hf]
    rfl
  · rfl

theorem joinsIn_of_ends {es : List Emission} (h : ∀ e ∈ es, endsInWord e.text = false) :
    joinsIn es = 0 := by
  refine adjacent_eq_zero.2 fun e f hef => Emission.joins_of_ends (h e ?_) f
  exact hef.subset List.mem_cons_self

/-- emissions that are apart from each other; `bare` and `loose` say whether a word is at their
start with no blank put before it, and whether one is at their end -/
structure Piece (bare loose : Bool) (es : List Emission) : Prop where
  filled : ∀ e ∈ es, e.text ≠ ""
  joins : joinsIn es = 0
  first : ∃ e, es.head? = some e ∧ e.bare = bare
  last : ∃ e, es.getLast? = some e ∧ e.Closed ∧ endsInWord e.text = loose

theorem Piece.seam (h : Piece b l as) (h' : Piece b' l' bs) (rest : List Emission) :
    seam as (bs ++ rest) = if l && b' then 1 else 0 := by
  obtain ⟨e, he, hclosed, rfl⟩ := h.last
  obtain ⟨f, hf, rfl⟩ := h'.first
  have hhead : (bs ++ rest).head? = some f := by rw [List.head?_append, hf, Option.some_or]
  rw [Forth.seam, he, hhead, ← Emission.joins_of_closed hclosed]

theorem Piece.append (h : Piece b l as) (h' : Piece b' l' bs) (hseam : (l && b') = false) :
    Piece b l' (as ++ bs) where
  filled := List.forall_mem_append.2 ⟨h.filled, h'.filled⟩
  joins := by
    have hzero := h.seam h' []
    rw [List.append_nil, hseam] at hzero
    rw [joinsIn_append, h.joins, h'.joins, hzero]
    rfl
  first := by
    obtain ⟨e, he, hb⟩ := h.first
    exact ⟨e, by rw [List.head?_append, he, Option.some_or], hb⟩
  last := by
    obtain ⟨e, he, hl⟩ := h'.last
    exact ⟨e, by rw [List.getLast?_append, he, Option.some_or], hl⟩

theorem piece_say {t : String} (h : t ≠ "") : Piece false (endsInWord t) [.say t] where
  filled := List.forall_mem_singleton.2 h
  joins := rfl
  first := ⟨_, rfl, Bool.and_false _⟩
  last := ⟨_, rfl, Emission.closed_say t, rfl⟩

theorem piece_put {t : String} (h : t ≠ "") (hstart : startsWithWord t = false)
    (hend : endsInWord t = false) : Piece false false [.put t] where
  filled := List.forall_mem_singleton.2 h
  joins := rfl
  first := ⟨_, rfl, by rw [Emission.bare, Emission.text, hstart, Bool.false_and]⟩
  last := ⟨_, rfl, .inr hend, hend⟩

/-! ## expressions -/

/-- variables are identifiers -/
def Lexicon.Named (L : Lexicon) : Prop := ∀ x ∈ L.vars, Identifier x

variable {L : Lexicon}

theorem AccessText.piece (hL : L.Named) {x access : String} {es : List Emission}
    (h : AccessText L x access es) (ha : access ≠ "") : Piece false false es := by
  cases h with
  | @const n _ =>
    have hne : " " ++ intText n ≠ "" := fun h0 => by simp at h0
    refine piece_put (fun h0 => by simp at h0) ?_ (endsInWord_append _ (by decide))
    rw [startsWithWord_append hne, startsWithWord_append (by decide)]
    rfl
  | var hx =>
    have hne : x ≠ "" := (Solid.ofIdentifier (hL x (Lexicon.mem_vars.2 hx))).ne_empty
    have hblank : startsWithWord " " = false ∧ endsInWord " " = false := ⟨rfl, rfl⟩
    refine ⟨by simp [Emission.text, hne, ha], ?_, ⟨.put " ", rfl, rfl⟩, ⟨.put " ", rfl,
      .inr rfl, rfl⟩⟩
    simp [joinsIn, adjacent, Emission.joins, Emission.text, hblank]

theorem addWord_ne_empty (op : AddOp) : addWord op ≠ "" := by cases op <;> decide
theorem mulWord_ne_empty (op : MulOp) : mulWord op ≠ "" := by cases op <;> decide

mutual

theorem ExprText.piece (hL : L.Named) : ∀ {e : Expr} {es : List Emission}, ExprText L e es →
    ∃ l, Piece false l es
  | _, _, .plain _ hfirst hrest => by
    obtain ⟨_, hpiece⟩ := hfirst.piece hL
    exact hrest.piece hL hpiece
  | _, _, .literal hrest => hrest.piece hL (piece_say (solid_minus _).ne_empty)
  | _, _, .negated _ hterm => by
    obtain ⟨_, hpiece⟩ := hterm.piece hL
    exact ⟨_, hpiece.append (piece_say (by decide)) (Bool.and_false _)⟩

/-- further terms go on from what is before them -/
theorem TermsText.piece (hL : L.Named) :
    ∀ {xs : List (AddOp × Term)} {es : List Emission}, TermsText L xs es →
    ∀ {l : Bool} {as : List Emission}, Piece false l as → ∃ l', Piece false l' (as ++ es)
  | _, _, .nil, l, as, h => ⟨l, by rwa [List.append_nil]⟩
  | _, _, @TermsText.cons _ op _ _ _ _ hx hrest, _, _, h => by
    obtain ⟨_, hpiece⟩ := hx.piece hL
    have hop := (h.append hpiece (Bool.and_false _)).append (piece_say (addWord_ne_empty op))
      (Bool.and_false _)
    obtain ⟨l, hall⟩ := hrest.piece hL hop
    exact ⟨l, by simpa using hall⟩

theorem TermText.piece (hL : L.Named) : ∀ {x : Term} {es : List Emission}, TermText L x es →
    ∃ l, Piece false l es
  | _, _, .mk hfirst hrest => by
    obtain ⟨_, hpiece⟩ := hfirst.piece hL
    exact hrest.piece hL hpiece

theorem FactorsText.piece (hL : L.Named) : ∀ {xs : List (MulOp × Factor)} {es : List Emission},
    FactorsText L xs es → ∀ {l : Bool} {as : List Emission}, Piece false l as →
    ∃ l', Piece false l' (as ++ es)
  | _, _, .nil, l, as, h => ⟨l, by rwa [List.append_nil]⟩
  | _, _, @FactorsText.cons _ op _ _ _ _ hx hrest, _, _, h => by
    obtain ⟨_, hpiece⟩ := hx.piece hL
    have hop := (h.append hpiece (Bool.and_false _)).append (piece_say (mulWord_ne_empty op))
      (Bool.and_false _)
    obtain ⟨l, hall⟩ := hrest.piece hL hop
    exact ⟨l, by simpa using hall⟩

theorem FactorText.piece (hL : L.Named) : ∀ {x : Factor} {es : List Emission}, FactorText L x es →
    ∃ l, Piece false l es
  | _, _, .name h => ⟨_, h.piece hL (by decide)⟩
  | _, _, .number =>
    ⟨_, (piece_put (by decide) rfl rfl).append (piece_say (solid_nat _).ne_empty)
      (Bool.and_false _)⟩
  | _, _, .paren h => h.piece hL

end

theorem ConditionText.piece (hL : L.Named) {test : Condition} {es : List Emission}
    (h : ConditionText L test es) : ∃ l, Piece false l es := by
  cases h with
  | odd he =>
    obtain ⟨_, hpiece⟩ := he.piece hL
    exact ⟨_, hpiece.append (piece_say (by decide)) (Bool.and_false _)⟩
  | @compare l r op es ds hl hr =>
    obtain ⟨_, hleft⟩ := hl.piece hL
    obtain ⟨_, hright⟩ := hr.piece hL
    have hop : Piece false false [.put (" " ++ relWord op ++ " ")] := by
      cases op <;> exact piece_put (by decide) rfl rfl
    exact ⟨_, hleft.append (hright.append hop (Bool.and_false _)) (Bool.and_false _)⟩

/-! ## statements -/

/-- a word is left at the end of the text for a call from outside -/
def isLoose (c : Context) : Option String → Bool
  | none => false
  | some q => q ∉ c.path

/-- a variable is saved with no blank before it for a call from inside -/
def isBare (c : Context) : Option String → Bool
  | none => false
  | some q => q ∈ c.path && !c.names.vars.isEmpty

/-- how many calls run together with the next one -/
def clashes (c : Context) : List (Option String) → Nat :=
  adjacent fun m m' => isLoose c m && isBare c m'

theorem piece_recursion {xs : List String} (h : ∀ x ∈ xs, Solid x) :
    Piece (!xs.isEmpty) false (recursion xs) := by
  have hends : ∀ e ∈ recursion xs, e.text ≠ "" ∧ endsInWord e.text = false := by
    intro e he
    simp only [recursion, List.mem_append, List.mem_cons, List.mem_map, List.mem_reverse] at he
    rcases he with ⟨x, _, rfl⟩ | rfl | ⟨x, _, rfl⟩
    · exact ⟨fun h0 => by simp [Emission.text] at h0, endsInWord_append x (by decide)⟩
    · exact ⟨by decide, rfl⟩
    · exact ⟨fun h0 => by simp [Emission.text] at h0, endsInWord_append x (by decide)⟩
  refine ⟨fun e he => (hends e he).1, joinsIn_of_ends fun e he => (hends e he).2, ?_, ?_⟩
  · cases xs with
    | nil => exact ⟨_, rfl, rfl⟩
    | cons x xs =>
      have hx : Solid x := h x List.mem_cons_self
      refine ⟨_, rfl, ?_⟩
      show (startsWithWord (x ++ " @ ") && true) = true
      rw [startsWithWord_append hx.ne_empty, hx.startsWithWord]
      rfl
  · have hne : recursion xs ≠ [] := by simp [recursion]
    have hlast := (hends _ (List.getLast_mem hne)).2
    exact ⟨_, List.getLast?_eq_some_getLast hne, .inr hlast, hlast⟩

variable {c : Context}

theorem piece_call (hL : c.names.Named) {q : String} (hq : Solid q) :
    Piece (isBare c (some q)) (isLoose c (some q)) (callText c q) := by
  rw [callText]
  by_cases h : q ∈ c.path
  · simpa [isBare, isLoose, h] using piece_recursion fun x hx => .ofIdentifier (hL x hx)
  · simpa [isBare, isLoose, h, hq.endsInWord] using piece_say hq.ne_empty

/-- one piece of text for each part of a trail -/
def Pieces (c : Context) : List (List Emission) → List (Option String) → Prop :=
  List.Forall₂ fun es m => Piece (isBare c m) (isLoose c m) es

theorem Pieces.append {ps qs : List (List Emission)} {ms ns : List (Option String)}
    (h : Pieces c ps ms) (h' : Pieces c qs ns) :
    Pieces c (ps ++ qs) (ms ++ ns) := List.rel_append h h'

theorem Pieces.one {m : Option String} {es : List Emission}
    (h : Piece (isBare c m) (isLoose c m) es) : Pieces c [es] [m] := .cons h .nil

mutual

theorem StatementText.pieces (hL : c.names.Named) :
    ∀ {s : Statement} {es : List Emission}, StatementText c s es →
    (∀ q, some q ∈ s.trail → Solid q) → ∃ ps, Pieces c ps s.trail ∧ ps.flatten = es
  | _, _, .assign he hx, _ => by
    obtain ⟨_, hpiece⟩ := he.piece hL
    exact ⟨_, .one (m := none) (hpiece.append (hx.piece hL (by decide)) (Bool.and_false _)),
      List.flatten_singleton⟩
  | .call q, _, .call, hq =>
    ⟨_, .one (piece_call hL (hq q List.mem_cons_self)), List.flatten_singleton⟩
  | _, _, .block hs, hq => hs.pieces hL hq
  | _, _, .ifThen ht hs, hq => by
    obtain ⟨_, htest⟩ := ht.piece hL
    obtain ⟨ps, hps, rfl⟩ := hs.pieces hL fun q hmem => hq q (by simp [Statement.trail, hmem])
    have hif := htest.append (piece_put (t := " if ") (by decide) rfl rfl) (Bool.and_false _)
    have hthen := piece_put (t := " then ") (by decide) rfl rfl
    exact ⟨_, .cons hif (hps.append (.one (m := none) hthen)), by simp⟩
  | _, _, .whileDo ht hs, hq => by
    obtain ⟨_, htest⟩ := ht.piece hL
    obtain ⟨ps, hps, rfl⟩ := hs.pieces hL fun q hmem => hq q (by simp [Statement.trail, hmem])
    have hbegin := (piece_say (t := " begin ") (by decide)).append htest (Bool.and_false _)
    have hwhile := hbegin.append (piece_say (t := " while ") (by decide)) (Bool.and_false _)
    have hrepeat := piece_say (t := " repeat ") (by decide)
    exact ⟨_, .cons hwhile (hps.append (.one (m := none) hrepeat)), by simp⟩
  | _, _, .print he, _ => by
    obtain ⟨_, hpiece⟩ := he.piece hL
    have hdot := piece_say (t := " . ") (by decide)
    exact ⟨_, .one (m := none) (hpiece.append hdot (Bool.and_false _)), List.flatten_singleton⟩

theorem StatementsText.pieces (hL : c.names.Named) : ∀ {ss : List Statement} {es : List Emission},
    StatementsText c ss es → (∀ q, some q ∈ Statement.trail.trailAll ss → Solid q) →
      ∃ ps, Pieces c ps (Statement.trail.trailAll ss) ∧ ps.flatten = es
  | _, _, .nil, _ => ⟨[], .nil, rfl⟩
  | _, _, .cons hs hrest, hq => by
    obtain ⟨ps, hps, rfl⟩ := hs.pieces hL fun q hmem => hq q (List.mem_append_left _ hmem)
    obtain ⟨qs, hqs, rfl⟩ := hrest.pieces hL fun q hmem => hq q (List.mem_append_right _ hmem)
    exact ⟨_, hps.append hqs, List.flatten_append⟩

end

/-- emissions after which a text goes on with a new word, if more is said or put after a blank -/
structure Row (es : List Emission) : Prop where
  filled : ∀ e ∈ es, e.text ≠ ""
  closed : ∀ e ∈ es.getLast?, e.Closed

theorem Pieces.row {ps : List (List Emission)} {ms : List (Option String)} (h : Pieces c ps ms) :
    Row ps.flatten := by
  induction h with
  | nil => exact ⟨List.forall_mem_nil _, fun _ h0 => by cases h0⟩
  | @cons es m ps ms hpiece _ ih =>
    rw [List.flatten_cons]
    refine ⟨List.forall_mem_append.2 ⟨hpiece.filled, ih.filled⟩, ?_⟩
    rw [List.getLast?_append]
    cases hlast : ps.flatten.getLast? with
    | none =>
      obtain ⟨e, he, hclosed, -⟩ := hpiece.last
      rw [Option.none_or, he]
      rintro _ ⟨⟩
      exact hclosed
    | some e =>
      rw [Option.some_or, ← hlast]
      exact ih.closed

/-- pieces run together where a call leaves a word and the next one starts with a bare one -/
theorem Pieces.joins {ps : List (List Emission)} {ms : List (Option String)} (h : Pieces c ps ms) :
    joinsIn ps.flatten = clashes c ms := by
  induction h with
  | nil => rfl
  | @cons es m ps ms hpiece hrest ih =>
    rw [List.flatten_cons, joinsIn_append, hpiece.joins, ih]
    cases hrest with
    | nil => simp [seam, clashes, adjacent]
    | @cons es' m' ps ms hpiece' _ =>
      rw [List.flatten_cons, hpiece.seam hpiece', Nat.zero_add]
      rfl

/-! ## definitions -/

theorem Lexicon.named_empty : Lexicon.empty.Named := List.forall_mem_nil _

theorem Lexicon.Named.declareAll (hL : L.Named) {ds : List (String × Entry)}
    (hds : ∀ x, (x, Entry.var) ∈ ds → Identifier x) : (L.declareAll ds).Named := by
  intro x hx
  rw [mem_vars, find?_declareAll, Option.or_eq_some_iff] at hx
  rcases hx with hx | ⟨-, hx⟩
  · obtain ⟨_, _, hsplit, -⟩ := List.lookup_eq_some_iff.1 hx
    exact hds x (List.mem_reverse.1 (hsplit ▸ List.mem_append_right _ List.mem_cons_self))
  · exact hL x (mem_vars.2 hx)

theorem mem_ownDeclarations {consts : Option (List (String × Nat))} {vars : Option (List String)}
    {x : String} (h : (x, Entry.var) ∈ ownDeclarations consts vars) : x ∈ vars.getD [] := by
  rcases List.mem_append.1 h with h | h
  · obtain ⟨d, -, hd⟩ := List.mem_map.1 h
    cases hd
  · obtain ⟨y, hy, hd⟩ := List.mem_map.1 h
    cases hd
    exact hy

mutual

/-- a variable of a block is named in its text -/
theorem name_mem_symbols {x : String} :
    ∀ {b : Block}, (x, Entry.var) ∈ declarationsOf b → Symbol.name x ∈ b.symbols
  | .mk consts vars procs body, h => by
    rw [declarationsOf] at h
    rw [Block.symbols]
    rcases List.mem_append.1 h with h | h
    · have hmem := mem_varsSymbols (mem_ownDeclarations h)
      simp [hmem]
    · simp [name_mem_procSymbols h]

theorem name_mem_procSymbols {x : String} : ∀ {procs : List (String × Block)},
    (x, Entry.var) ∈ procDeclarations procs → Symbol.name x ∈ Block.procSymbols procs
  | [], h => by cases h
  | (q, b) :: rest, h => by
    rw [procDeclarations] at h
    rw [Block.procSymbols]
    rcases List.mem_append.1 h with h | h
    · simp [name_mem_symbols h]
    · simp [name_mem_procSymbols h]

end

section Named

variable (hL : L.Named)
include hL

theorem Lexicon.Named.enter {consts : Option (List (String × Nat))} {vars : Option (List String)}
    (h : ∀ x ∈ vars.getD [], Identifier x) : (L.enter consts vars).Named := by
  rw [enter_eq]
  exact hL.declareAll fun x hx => h x (mem_ownDeclarations hx)

theorem Lexicon.Named.addBlock {b : Block} (h : ∀ x, Symbol.name x ∈ b.symbols → Identifier x) :
    (L.addBlock b).Named := by
  rw [addBlock_eq]
  exact hL.declareAll fun x hx => h x (name_mem_symbols hx)

theorem Lexicon.Named.addProcs {procs : List (String × Block)}
    (h : ∀ x, Symbol.name x ∈ Block.procSymbols procs → Identifier x) :
    (L.addProcs procs).Named := by
  rw [addProcs_eq]
  exact hL.declareAll fun x hx => h x (name_mem_procSymbols hx)

end Named

/-- emissions after which a text goes on with a new word, whatever is next -/
structure Sealed (es : List Emission) : Prop where
  filled : ∀ e ∈ es, e.text ≠ ""
  ends : ∀ e ∈ es.getLast?, endsInWord e.text = false

theorem Sealed.append (h : Sealed as) (h' : Sealed bs) : Sealed (as ++ bs) := by
  refine ⟨List.forall_mem_append.2 ⟨h.filled, h'.filled⟩, ?_⟩
  rw [List.getLast?_append]
  cases hlast : bs.getLast? with
  | none => exact h.ends
  | some e =>
    rw [Option.some_or, ← hlast]
    exact h'.ends

theorem Sealed.joins (h : Sealed as) (bs : List Emission) :
    joinsIn (as ++ bs) = joinsIn as + joinsIn bs := by
  have hseam : seam as bs = 0 := seam_eq_zero fun e he f _ => Emission.joins_of_ends (h.ends e he) f
  rw [joinsIn_append, hseam, Nat.add_zero]

theorem sealed_one {e : Emission} (h : e.text ≠ "") (hend : endsInWord e.text = false) :
    Sealed [e] := by
  refine ⟨List.forall_mem_singleton.2 h, ?_⟩
  rintro _ ⟨⟩
  exact hend

theorem sealed_variables (xs : List String) :
    Sealed (xs.map variableLine) ∧ joinsIn (xs.map variableLine) = 0 := by
  have hline : ∀ e ∈ xs.map variableLine, e.text ≠ "" ∧ endsInWord e.text = false := by
    intro e he
    obtain ⟨x, -, rfl⟩ := List.mem_map.1 he
    exact ⟨fun h0 => by simp [variableLine, Emission.text] at h0, endsInWord_append _ (by decide)⟩
  exact ⟨⟨fun e he => (hline e he).1, fun e he => (hline e (List.mem_of_getLast? he)).2⟩,
    joinsIn_of_ends fun e he => (hline e he).2⟩

/-- the body of a definition -/
theorem StatementText.sealed (hL : c.names.Named) {s : Statement} {es : List Emission}
    (h : StatementText c s es) (hs : ∀ q, some q ∈ s.trail → Solid q) :
    Sealed (es ++ [.put " ;\n"]) ∧ joinsIn (es ++ [.put " ;\n"]) = clashes c s.trail := by
  obtain ⟨ps, hps, rfl⟩ := h.pieces hL hs
  have hrow := hps.row
  have hsemi : Sealed [.put " ;\n"] := sealed_one (by decide) rfl
  refine ⟨⟨List.forall_mem_append.2 ⟨hrow.filled, hsemi.filled⟩, ?_⟩, ?_⟩
  · rw [List.getLast?_append]
    exact hsemi.ends
  · have hseam : seam ps.flatten [.put " ;\n"] = 0 := by
      refine seam_eq_zero ?_
      rintro e he _ ⟨⟩
      rw [Emission.joins_of_closed (hrow.closed e he)]
      exact Bool.and_false _
    rw [joinsIn_append, hps.joins, hseam]
    rfl

def Routine.clashes (r : Routine) : Nat := Forth.clashes r.context r.block.body.trail

mutual

/-- **Joins of a definition**: those of the calls in the bodies of its routines. -/
theorem DefinitionText.spaced : ∀ {path : List String} {L : Lexicon} {head : String} {b : Block}
    {es : List Emission}, DefinitionText path L head b es → L.Named → endsInWord head = false →
    head ≠ "" →
      (∀ x, Symbol.name x ∈ b.symbols → Identifier x) →
        Sealed es ∧ joinsIn es = ((routinesOf path L b).map Routine.clashes).sum
  | path, L, head, _, _, @DefinitionText.mk _ _ _ consts vars procs body es ds hprocs hbody, hL,
      hhead, hne, hnames => by
    have hown : (L.enter consts vars).Named := hL.enter fun x hx =>
      hnames x (by simp [Block.symbols, mem_varsSymbols hx])
    have hprocNames : ∀ x, Symbol.name x ∈ Block.procSymbols procs → Identifier x := fun x hx =>
      hnames x (by simp [Block.symbols, hx])
    have hall : ((L.enter consts vars).addProcs procs).Named := hown.addProcs hprocNames
    obtain ⟨hvars, hvars0⟩ := sealed_variables (vars.getD [])
    obtain ⟨hinner, hinner0⟩ := hprocs.spaced hown hprocNames
    obtain ⟨hown, hown0⟩ := hbody.sealed hall fun q hq => .ofIdentifier (hnames q (by
      simp [Block.symbols, Statement.mem_symbols_of_trail hq]))
    have hput : Sealed [.put head] := sealed_one hne hhead
    refine ⟨hvars.append (hinner.append (hput.append hown)), ?_⟩
    rw [hvars.joins, hinner.joins, ← List.singleton_append, hput.joins, hvars0, hinner0, hown0,
      routinesOf]
    simp only [List.map_append, List.sum_append, List.map_singleton, List.sum_singleton]
    show 0 + (_ + (0 + _)) = _
    rw [Nat.zero_add, Nat.zero_add]
    rfl

theorem ProcsText.spaced : ∀ {path : List String} {L : Lexicon} {procs : List (String × Block)}
    {es : List Emission}, ProcsText path L procs es → L.Named →
      (∀ x, Symbol.name x ∈ Block.procSymbols procs → Identifier x) →
        Sealed es ∧ joinsIn es = ((procRoutines path L procs).map Routine.clashes).sum
  | _, _, _, _, .nil, _, _ => ⟨⟨List.forall_mem_nil _, fun _ h0 => by cases h0⟩, rfl⟩
  | path, L, _, _, @ProcsText.cons _ _ q b rest es ds hdef hrest, hL, hnames => by
    have hinner : ∀ x, Symbol.name x ∈ b.symbols → Identifier x := fun x hx =>
      hnames x (by simp [Block.procSymbols, hx])
    have hend : endsInWord (heading q) = false := endsInWord_append _ (by decide)
    have hne : heading q ≠ "" := fun h0 => by simp [heading] at h0
    obtain ⟨hfirst, hfirst0⟩ := hdef.spaced hL hend hne hinner
    obtain ⟨hmore, hmore0⟩ := hrest.spaced (hL.addBlock hinner) fun x hx =>
      hnames x (by simp [Block.procSymbols, hx])
    refine ⟨hfirst.append hmore, ?_⟩
    rw [hfirst.joins, hfirst0, hmore0, procRoutines, List.map_append, List.sum_append]

end

/-- the calls of a routine run together nowhere -/
theorem Routine.clashes_eq_zero {r : Routine} :
    r.clashes = 0 ↔ ∀ q q', [some q, some q'] <:+: r.block.body.trail → q ∉ r.path → q' ∈ r.path →
      r.names.vars = [] := by
  rw [Routine.clashes, Forth.clashes, adjacent_eq_zero]
  constructor
  · intro h q q' hadj hq hq'
    have hcall := h (some q) (some q') hadj
    simpa [isLoose, isBare, Routine.context, hq, hq'] using hcall
  · rintro h m m' hadj
    cases m with
    | none => rfl
    | some q =>
      cases m' with
      | none => exact Bool.and_false _
      | some q' =>
        by_cases hq : q ∈ r.path
        · simp [isLoose, Routine.context, hq]
        · by_cases hq' : q' ∈ r.path
          · simp [isBare, Routine.context, h q q' hadj hq hq']
          · simp [isBare, Routine.context, hq']

theorem sum_clashes_eq_zero {rs : List Routine} :
    (rs.map Routine.clashes).sum = 0 ↔ ∀ r ∈ rs, r.clashes = 0 := by
  induction rs with
  | nil => simp
  | cons r rs ih => rw [List.map_cons, List.sum_cons, Nat.add_eq_zero_iff, ih, List.forall_mem_cons]

/-- **Words of a Forth text.**  They are the words of the emissions, less one for each place where
two calls run together.  That is a call of a procedure from outside it, with a call of a procedure
from inside it right after it, and a variable known there. -/
theorem words_apart_iff {source text : String} {p : Program} {v : Value} {t : Translator}
    (hparse : (parseText source).1 = .ok p) (h : translate p.toValue {} = (.ok v, text, t)) :
    (words text).length + ((routines p).map Routine.clashes).sum =
    (ownWords (emitted p.toValue {})).length ∧
      (words text = ownWords (emitted p.toValue {}) ↔
        ∀ r ∈ routines p, ∀ q q', [some q, some q'] <:+: r.block.body.trail → q ∉ r.path →
        q' ∈ r.path →
          r.names.vars = []) := by
  have hshaped := shaped_of_parse hparse
  have htext : text = render false (emitted p.toValue {}) :=
    (congrArg (fun z => z.2.1) h).symm.trans (text_translate _ _)
  obtain ⟨es, hes, hemitted⟩ := emitted_program h
  have hnames : ∀ x, Symbol.name x ∈ p.block.symbols → Identifier x := fun x hx =>
    hshaped.names x (List.mem_append_left _ hx)
  obtain ⟨hsealed, hjoins⟩ := hes.spaced Lexicon.named_empty rfl (by decide) hnames
  have hrun : Sealed [.sayLine "run\n"] := sealed_one (by decide) rfl
  have hcount : joinsIn (emitted p.toValue {}) = ((routines p).map Routine.clashes).sum := by
    rw [hemitted, hsealed.joins, hjoins]
    rfl
  obtain ⟨hlength, hwords⟩ := words_render false (hemitted ▸ (hsealed.append hrun).filled)
  rw [hcount, ← htext] at hlength
  rw [hcount, ← htext] at hwords
  refine ⟨hlength, ?_⟩
  simp only [← Routine.clashes_eq_zero, ← sum_clashes_eq_zero]
  refine ⟨fun heq => ?_, hwords⟩
  have hlen := congrArg List.length heq
  omega

/-- a recursive call after an assignment after another call -/
def callAndBack : Program :=
  ⟨.mk none (some ["x"])
    [("q", .mk none none [] (.print (.mk none (.mk (.number 1) []) []))),
      ("p", .mk none none [] (.block
        [.call "q", .assign "x" (.mk (some .minus) (.mk (.number 1) []) []), .call "p"]))]
    (.call "p")⟩

def callAndBackText : String :=
  "variable x\n: q  1  .  ;\n: p q -1 x ! x @  recurse x !  ;\n: run p ;\nrun\n\n"

set_option maxRecDepth 2000 in
theorem callAndBack_words_apart :
    (parseText
      "VAR x; PROCEDURE q; ! 1; PROCEDURE p; BEGIN CALL q; x := -1; CALL p END; CALL p .").1 =
        .ok callAndBack ∧
      (∃ t, translate callAndBack.toValue {} = (.ok .none, callAndBackText, t)) ∧
      words callAndBackText = ownWords (emitted callAndBack.toValue {}) := by
  have hparse :
      (parseText
        "VAR x; PROCEDURE q; ! 1; PROCEDURE p; BEGIN CALL q; x := -1; CALL p END; CALL p .").1 =
      .ok callAndBack := by with_unfolding_all rfl
  have htranslate : ∃ t, translate callAndBack.toValue {} = (.ok .none, callAndBackText, t) :=
    ⟨_, by with_unfolding_all rfl⟩
  obtain ⟨t, ht⟩ := htranslate
  refine ⟨hparse, ⟨t, ht⟩, (words_apart_iff hparse ht).2.2 ?_⟩
  have hnone : ∀ r ∈ routines callAndBack, r.clashes = 0 := sum_clashes_eq_zero.1 rfl
  exact fun r hr => Routine.clashes_eq_zero.1 (hnone r hr)

/-- a recursive call right after another call -/
def callTwice : Program :=
  ⟨.mk none (some ["x"])
    [("q", .mk none none [] (.print (.mk none (.mk (.number 1) []) []))),
      ("p", .mk none none [] (.block [.call "q", .call "p"]))]
    (.call "p")⟩

def callTwiceText : String :=
  "variable x\n: q  1  .  ;\n: p qx @  recurse x !  ;\n: run p ;\nrun\n\n"

set_option maxRecDepth 2000 in
/-- **A saved variable runs together with the call before it.**  The text has the word `qx` where a
call of `q` and the first variable to be saved are written. -/
theorem saved_variable_joins_call :
    (parseText "VAR x; PROCEDURE q; ! 1; PROCEDURE p; BEGIN CALL q; CALL p END; CALL p .").1 =
      .ok callTwice ∧ (∃ t, translate callTwice.toValue {} = (.ok .none, callTwiceText, t)) ∧
      "qx" ∈ words callTwiceText ∧ "qx" ∉ ownWords (emitted callTwice.toValue {}) ∧
      words callTwiceText ≠ ownWords (emitted callTwice.toValue {}) := by
  have hin : "qx" ∈ words callTwiceText := by decide
  have hout : "qx" ∉ ownWords (emitted callTwice.toValue {}) := by decide +kernel
  refine ⟨by with_unfolding_all rfl, ⟨_, by with_unfolding_all rfl⟩, hin, hout, fun heq => ?_⟩
  exact hout (heq ▸ hin)

end Pl0Kit.Forth
