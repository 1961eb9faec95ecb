import Pl0Kit.Proofs.NestedProcedures
import Pl0Kit.Proofs.Numbering
import Pl0Kit.Proofs.TargetWords

/-!
# Labels without a separator

Retro 12 labels are a hint, the declared name and a serial number, with nothing between the last
two.  A name may end in digits, so another split of the same characters can be the label of another
declaration.  The numbers are all different, and `short_labels_nodup_iff` says when the labels are
all different too.

* `definedIn text`    the names that a text defines;
* `Numbered.Clash`    digits go over from the name of one declaration to the number of another.
-/

namespace Pl0Kit

namespace Generator

open Text

/-! ## names that a text defines -/

/-- the name that a word defines: a cell's name is quoted and a definition's follows a colon -/
def definition? (w : String) : Option String :=
  match w.toList with
  | c :: cs => if c ∈ "':".toList then some (String.ofList cs) else none
  | [] => none

/-- the names that a Retro 12 text defines -/
def definedIn (text : String) : List String := (words text).filterMap definition?

theorem Ordinary.definition? {w : String} (h : Ordinary w) : definition? w = none := by
  rw [Generator.definition?]
  split
  · rename_i c cs hw
    have hc := h.2
    rw [hw] at hc
    have hmarks : "[]':".toList = '[' :: ']' :: "':".toList := rfl
    refine if_neg fun hm => of_decide_eq_true hc ?_
    rw [hmarks]
    exact List.mem_cons_of_mem _ (List.mem_cons_of_mem _ hm)
  · rfl

theorem definition?_marked {mark : String} {c : Char} (hmark : mark.toList = [c])
    (hc : c ∈ "':".toList) (l : String) : definition? (mark ++ l) = some l := by
  have hw : (mark ++ l).toList = c :: l.toList := by
    rw [String.toList_append, hmark]
    rfl
  rw [definition?, hw]
  exact (if_pos hc).trans (congrArg some String.ofList_toList)

theorem definition?_identifier {x : String} (h : Identifier x) : definition? x = none := by
  obtain ⟨c, cs, hx, hc, -⟩ := h.start
  have hmarks : "':".toList.any Lexeme.isNameStart = false := by decide
  rw [definition?, hx]
  exact if_neg fun hm => List.any_eq_false.1 hmarks c hm hc

theorem definitions_around (lead mark tail : String) {w t : String}
    (hlead : EndsBlank lead ∧ (words lead).filterMap definition? = [])
    (htail : tail.toList.head?.any isBlank = true ∧ (words tail).filterMap definition? = [])
    (hw : Solid (mark ++ w)) (ht : t = lead ++ mark ++ w ++ tail) :
    (words t).filterMap definition? = (definition? (mark ++ w)).toList := by
  rw [ht, words_marked hlead.1 hw htail.1, List.filterMap_append, hlead.2, List.filterMap_cons,
    htail.2]
  cases definition? (mark ++ w) <;> rfl

/-- the words of an event define its names -/
theorem definitions_text {e : Event} (h : e.Simple ∨ e.Bracket ∨ e.Heading) :
    (words (retro12.text e)).filterMap definition? = e.defined := by
  have hdialect : retro12 ∈ dialects := .tail _ (.head _)
  rcases h with h | h | h
  · have hnone : e.defined = [] := by
      cases e with
      | cell _ | procOpen _ | mainOpen => exact h.elim
      | _ => rfl
    rw [hnone]
    exact List.filterMap_eq_nil_iff.2 fun w hw => (h.ordinary hdialect w hw).definition?
  · cases e with
    | loopOpen _ _ | loopExit _ _ | loopClose _ _ | branch _ | join _ =>
      dsimp only [retro12, Event.defined]
      decide
    | _ => exact h.elim
  · cases e with
    | cell l =>
      refine (definitions_around "" "'" " var\n" (by decide) (by decide)
        (h.1.marked (by decide)) rfl).trans ?_
      rw [definition?_marked rfl (by decide)]
      rfl
    | procOpen l =>
      refine (definitions_around "" ":" "\n" (by decide) (by decide)
        (h.1.marked (by decide)) rfl).trans ?_
      rw [definition?_marked rfl (by decide)]
      rfl
    | procHead p =>
      refine (definitions_around "````\n\n# Procedure " "" "\n\n````\n" (by decide)
        (by decide) ((Solid.ofIdentifier h).marked (by decide)) rfl).trans ?_
      rw [String.empty_append, definition?_identifier h]
      rfl
    | start | procClose _ | mainOpen | mainClose =>
      dsimp only [retro12, Event.defined]
      decide
    | _ => exact h.elim

/-- the names that the text of a program defines are the labels of its declarations -/
theorem ProgramCode.definedIn {p : Program} {m : Nat} {f : Frame} {es : List Event}
    (h : ProgramCode retro12 p m f es) (hp : p.Shaped) :
    definedIn (render retro12 es) = p.numbered.map (labelOf retro12) ++ ["main"] := by
  have hdialect : retro12 ∈ dialects := .tail _ (.head _)
  rw [Generator.definedIn, words_render hdialect, List.filterMap_flatMap, ← h.defined, definedBy]
  exact List.flatMap_congr fun e he => definitions_text ((h.written hdialect hp).events e he)

/-! ## equal labels -/

theorem labelOf_retro12_inj {d e : Numbered} : labelOf retro12 d = labelOf retro12 e ↔
    d.kind = e.kind ∧
      d.name.toList ++ Nat.toDigits 10 d.serial = e.name.toList ++ Nat.toDigits 10 e.serial := by
  obtain ⟨kind, x, n⟩ := d
  obtain ⟨kind', y, m⟩ := e
  rw [← String.toList_inj]
  cases kind <;> cases kind' <;> simp [labelOf, retro12]

end Generator

/-- the name of `d` ends in the digits with which the number of `e` starts, and they are what the
two names and the two numbers differ by -/
def Numbered.Clash (d e : Numbered) : Prop :=
  d.kind = e.kind ∧ ∃ ds : List Char, ds ≠ [] ∧ d.name.toList = e.name.toList ++ ds ∧
    Nat.toDigits 10 e.serial = ds ++ Nat.toDigits 10 d.serial

namespace Generator

/-- two declarations with different numbers have one label exactly if they clash -/
theorem labelOf_eq_iff_clash {d e : Numbered} :
    d.serial ≠ e.serial ∧ labelOf retro12 d = labelOf retro12 e ↔ d.Clash e ∨ e.Clash d := by
  rw [labelOf_retro12_inj]
  constructor
  · rintro ⟨hne, hkind, hchars⟩
    rcases List.append_eq_append_iff.1 hchars with ⟨ds, hname, hdigits⟩ | ⟨ds, hname, hdigits⟩
    · refine .inr ⟨hkind.symm, ds, ?_, hname, hdigits⟩
      rintro rfl
      exact hne (Text.toDigits_inj hdigits)
    · refine .inl ⟨hkind, ds, ?_, hname, hdigits⟩
      rintro rfl
      exact hne (Text.toDigits_inj hdigits).symm
  · have hclash : ∀ {d e : Numbered}, d.Clash e → d.serial ≠ e.serial ∧ d.kind = e.kind ∧
        d.name.toList ++ Nat.toDigits 10 d.serial = e.name.toList ++ Nat.toDigits 10 e.serial := by
      rintro d e ⟨hkind, ds, hds, hname, hdigits⟩
      refine ⟨fun hserial => hds ?_, hkind, by rw [hname, hdigits, List.append_assoc]⟩
      rw [hserial] at hdigits
      exact List.append_left_eq_self.1 hdigits.symm
    rintro (h | h)
    · exact hclash h
    · obtain ⟨hne, hkind, hchars⟩ := hclash h
      exact ⟨hne.symm, hkind.symm, hchars.symm⟩

theorem labelOf_retro12_ne_main (d : Numbered) : labelOf retro12 d ≠ "main" := by
  intro h
  have hl := congrArg String.toList h
  obtain ⟨kind, x, n⟩ := d
  cases kind <;> simp [labelOf, retro12] at hl

theorem nodup_labels_iff (p : Program) : (p.numbered.map (labelOf retro12) ++ ["main"]).Nodup ↔
    ∀ d ∈ p.numbered, ∀ e ∈ p.numbered, ¬ d.Clash e := by
  have hserial := numbered_serial_nodup p
  have hmain : "main" ∉ p.numbered.map (labelOf retro12) := by
    intro hmem
    obtain ⟨d, -, hd⟩ := List.mem_map.1 hmem
    exact labelOf_retro12_ne_main d hd
  rw [← List.concat_eq_append, List.nodup_concat, and_iff_right hmain,
    List.nodup_map_iff_inj_on hserial.of_map]
  constructor
  · intro hinj d hd e he hclash
    obtain ⟨hne, hlabel⟩ := labelOf_eq_iff_clash.2 (.inl hclash)
    exact hne (congrArg Numbered.serial (hinj d hd e he hlabel))
  · intro hnone d hd e he hlabel
    refine List.inj_on_of_nodup_map hserial hd he (not_not.1 fun hne => ?_)
    rcases labelOf_eq_iff_clash.1 ⟨hne, hlabel⟩ with h | h
    · exact hnone d hd e he h
    · exact hnone e he d hd h

/-- a name that clashes with a shorter one ends in a digit -/
theorem getLast?_of_clash {d e : Numbered} (h : d.Clash e) :
    ∃ c ∈ d.name.toList.getLast?, c.isDigit = true := by
  obtain ⟨-, ds, hds, hname, hdigits⟩ := h
  refine ⟨ds.getLast hds, ?_, ?_⟩
  · rw [hname, List.getLast?_append_of_ne_nil _ hds]
    exact List.getLast?_eq_getLast_of_ne_nil hds
  · refine Text.isDigit_of_mem_toDigits (n := e.serial) ?_
    rw [hdigits]
    exact List.mem_append_left _ (List.getLast_mem hds)

end Generator

open Generator

/-- **When Retro 12 labels are unique.**  The text of a parsed program defines one label for each
declaration of a variable or a procedure that is compiled, with serial numbers that are all
different.  The labels are different exactly if no two declarations of the same kind differ by
digits that go over from the name to the number, and so they are where no name ends in a digit. -/
theorem short_labels_nodup_iff {source text : String} {p : Program} {f : Frame} {r : Value}
    {g : Gen} (hparse : (parseText source).1 = .ok p)
    (hcompile : translate retro12 p.toValue {} = (.ok (f, r), text, g)) :
    definedIn text = p.numbered.map (labelOf retro12) ++ ["main"] ∧
    (p.numbered.map Numbered.serial).Nodup ∧
    ((definedIn text).Nodup ↔ ∀ d ∈ p.numbered, ∀ e ∈ p.numbered, ¬ d.Clash e) ∧
    ((∀ d ∈ p.numbered, ∀ c ∈ d.name.toList.getLast?, c.isDigit = false) →
      (definedIn text).Nodup) := by
  obtain ⟨es, hcode, rfl⟩ := program_emits hcompile
  have hdefined := hcode.definedIn (shaped_of_parse hparse)
  have hiff := nodup_labels_iff p
  rw [← hdefined] at hiff
  refine ⟨hdefined, numbered_serial_nodup p, hiff, fun hlast => hiff.2 fun d hd e _ hclash => ?_⟩
  obtain ⟨c, hc, hdigit⟩ := getLast?_of_clash hclash
  rw [hlast d hd c hc] at hdigit
  cases hdigit

/-- `VAR x1, x; PROCEDURE p1; VAR y; y := x1; BEGIN x1 := 3; CALL p1 END` -/
def copyDigits : Program :=
  ⟨.mk none (some ["x1", "x"]) [("p1", .mk none (some ["y"]) [] (.assign "y" (justName "x1")))]
    (.block [.assign "x1" (justNumber 3), .call "p1"])⟩

def copyDigitsText : String :=
  "'PL0:v:x11 var\n'PL0:v:x2 var\n````\n\n# Procedure p1\n\n````\n'PL0:v:y4 var\n:PL0:p:p13\n" ++
    "@PL0:v:x11 !PL0:v:y4 ;\n\n:main\n#3 !PL0:v:x11 PL0:p:p13 ;\nmain\n"

def copyDigitsFrame : Frame where
  vars := [(.str "x1", .str "PL0:v:x11"), (.str "x", .str "PL0:v:x2")]
  procs := [(.str "p1", .str "PL0:p:p13")]

/-- names that end in digits can have different labels -/
theorem copyDigits_labels :
    (parseText "var x1, x; procedure p1; var y; y := x1; begin x1 := 3; call p1 end.").1 =
      .ok copyDigits ∧
    translate retro12 copyDigits.toValue {} =
      (.ok (copyDigitsFrame, .none), copyDigitsText, { labels := 4 }) ∧
    definedIn copyDigitsText = copyDigits.numbered.map (labelOf retro12) ++ ["main"] ∧
    copyDigits.numbered = [⟨.var, "x1", 1⟩, ⟨.var, "x", 2⟩, ⟨.var, "y", 4⟩, ⟨.proc, "p1", 3⟩] ∧
    ((definedIn copyDigitsText).Nodup ↔
      ∀ d ∈ copyDigits.numbered, ∀ e ∈ copyDigits.numbered, ¬ d.Clash e) ∧
    (definedIn copyDigitsText).Nodup := by
  have hparse :
      (parseText "var x1, x; procedure p1; var y; y := x1; begin x1 := 3; call p1 end.").1 =
      .ok copyDigits := by with_unfolding_all rfl
  have hcompile : translate retro12 copyDigits.toValue {} =
      (.ok (copyDigitsFrame, .none), copyDigitsText, { labels := 4 }) := by with_unfolding_all rfl
  obtain ⟨hdefined, -, hiff, -⟩ := short_labels_nodup_iff hparse hcompile
  refine ⟨hparse, hcompile, hdefined, rfl, hiff, ?_⟩
  rw [hdefined]
  decide +kernel

/-- eleven variables, with `x1` as the first and `x` as the last one -/
def setTwice : Program :=
  ⟨.mk none (some ["x1", "a", "b", "c", "d", "e", "f", "g", "h", "i", "x"]) []
    (.block [.assign "x1" (justNumber 1), .assign "x" (justNumber 2), .print (justName "x1")])⟩

def setTwiceText : String :=
  "'PL0:v:x11 var\n'PL0:v:a2 var\n'PL0:v:b3 var\n'PL0:v:c4 var\n'PL0:v:d5 var\n'PL0:v:e6 var\n" ++
    "'PL0:v:f7 var\n'PL0:v:g8 var\n'PL0:v:h9 var\n'PL0:v:i10 var\n'PL0:v:x11 var\n" ++
    ":main\n#1 !PL0:v:x11 #2 !PL0:v:x11 @PL0:v:x11 putn nl ;\nmain\n"

set_option maxRecDepth 4000 in
/-- **Two variables with one label**: `x1` has number 1 and `x` has number 11, and the text stores
both values in the same cell. -/
theorem two_variables_share_label :
    (parseText "var x1, a, b, c, d, e, f, g, h, i, x; begin x1 := 1; x := 2; ! x1 end.").1 =
      .ok setTwice ∧
    (translate retro12 setTwice.toValue {}).1.toBool = true ∧
    (translate retro12 setTwice.toValue {}).2.1 = setTwiceText ∧
    (⟨.var, "x1", 1⟩ : Numbered) ∈ setTwice.numbered ∧
    (⟨.var, "x", 11⟩ : Numbered) ∈ setTwice.numbered ∧
    Numbered.Clash ⟨.var, "x1", 1⟩ ⟨.var, "x", 11⟩ ∧
    labelOf retro12 ⟨.var, "x1", 1⟩ = labelOf retro12 ⟨.var, "x", 11⟩ := by
  refine ⟨?_, ?_, ?_, ?_, ?_, ⟨rfl, "1".toList, ?_⟩, ?_⟩
  · with_unfolding_all rfl
  all_goals decide +kernel

end Pl0Kit
