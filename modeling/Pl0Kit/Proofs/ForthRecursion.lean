import Pl0Kit.Proofs.ForthSpacing
import Pl0Kit.Proofs.ForthVisits

/-!
# Recursive calls in a Forth text

A call from inside the procedure that is called is written as `recurse`, which goes to the word
whose definition is open at that place.  That is the innermost procedure around the call
(`InBody.beingDefined`), while the test is whether the procedure called is any one around it.
-/

namespace Pl0Kit.Text

/-- the characters of a word are in the text -/
theorem mem_of_mem_wordsFrom {cur cs w : List Char} (h : w ∈ wordsFrom cur cs) {c : Char}
    (hc : c ∈ w) : c ∈ cur ∨ c ∈ cs := by
  induction cs generalizing cur with
  | nil =>
    rw [wordsFrom] at h
    split at h
    · cases h
    · rw [List.mem_singleton.1 h, List.mem_reverse] at hc
      exact .inl hc
  | cons d cs ih =>
    rw [wordsFrom] at h
    split at h
    · split at h
      · rcases ih h with hcur | hcs
        · cases hcur
        · exact .inr (List.mem_cons_of_mem d hcs)
      · rcases List.mem_cons.1 h with rfl | h
        · exact .inl (List.mem_reverse.1 hc)
        · rcases ih h with hcur | hcs
          · cases hcur
          · exact .inr (List.mem_cons_of_mem d hcs)
    · rcases ih h with hcur | hcs
      · rcases List.mem_cons.1 hcur with rfl | hcur
        · exact .inr List.mem_cons_self
        · exact .inl hcur
      · exact .inr (List.mem_cons_of_mem d hcs)

theorem mem_of_mem_words {t w : String} (h : w ∈ words t) {c : Char} (hc : c ∈ w.toList) :
    c ∈ t.toList := by
  obtain ⟨cs, hcs, rfl⟩ := List.mem_map.1 h
  rw [String.toList_ofList] at hc
  rcases mem_of_mem_wordsFrom hcs hc with hnil | hmem
  · cases hnil
  · exact hmem

end Pl0Kit.Text

namespace Pl0Kit.Forth

open Act Generator Text

/-! ## emissions inside a definition -/

/-- neither opens nor closes a definition -/
def Quiet (t : String) : Prop := ':' ∉ t.toList ∧ ';' ∉ t.toList

instance (t : String) : Decidable (Quiet t) := inferInstanceAs (Decidable (_ ∧ _))

theorem Quiet.append {s t : String} (hs : Quiet s) (ht : Quiet t) : Quiet (s ++ t) := by
  simp only [Quiet, String.toList_append, List.mem_append, not_or]
  exact ⟨⟨hs.1, ht.1⟩, hs.2, ht.2⟩

theorem quiet_of_nameChars {t : String} (h : ∀ c ∈ t.toList, Lexeme.isNameChar c = true) :
    Quiet t :=
  ⟨fun hc => absurd (h _ hc) (by decide), fun hc => absurd (h _ hc) (by decide)⟩

theorem Quiet.ofIdentifier {x : String} (h : Identifier x) : Quiet x :=
  quiet_of_nameChars (nameChars_of_identifier h)

theorem quiet_nat (n : Nat) : Quiet (intText n) := by
  rw [Quiet, toList_intText]
  exact ⟨fun hc => absurd (isDigit_of_mem_toDigits hc) (by decide),
    fun hc => absurd (isDigit_of_mem_toDigits hc) (by decide)⟩

theorem Quiet.words {t : String} (h : Quiet t) : ":" ∉ words t ∧ ";" ∉ words t :=
  ⟨fun hw => h.1 (mem_of_mem_words hw (by decide)), fun hw => h.2 (mem_of_mem_words hw (by decide))⟩

/-- emissions inside a definition -/
def QuietAll (es : List Emission) : Prop := ∀ e ∈ es, Quiet e.text

theorem QuietAll.append {as bs : List Emission} (ha : QuietAll as) (hb : QuietAll bs) :
    QuietAll (as ++ bs) :=
  List.forall_mem_append.2 ⟨ha, hb⟩

theorem QuietAll.one {e : Emission} (h : Quiet e.text) : QuietAll [e] :=
  List.forall_mem_singleton.2 h

theorem QuietAll.cons {e : Emission} {es : List Emission} (h : Quiet e.text) (hes : QuietAll es) :
    QuietAll (e :: es) := List.forall_mem_cons.2 ⟨h, hes⟩

theorem quietAll_nil : QuietAll [] := List.forall_mem_nil _

theorem QuietAll.rendered {es : List Emission} (h : QuietAll es) (pending : Bool) :
    Quiet (render pending es) := by
  induction es generalizing pending with
  | nil =>
    have hempty : Quiet "" := by decide
    exact hempty
  | cons e es ih =>
    obtain ⟨he, hes⟩ := List.forall_mem_cons.1 h
    rw [render_cons]
    refine Quiet.append ?_ (he.append (ih hes e.pending))
    split
    · decide
    · decide

variable {L : Lexicon} {c : Context}

theorem AccessText.quiet (hL : L.Named) {x access : String} {es : List Emission}
    (h : AccessText L x access es) (ha : Quiet access) : QuietAll es := by
  have hblank : Quiet " " := by decide
  cases h with
  | @const n _ => exact .one ((hblank.append (quiet_nat n)).append hblank)
  | var hx =>
    have hquiet : Quiet x := .ofIdentifier (hL x (Lexicon.mem_vars.2 hx))
    exact .cons hblank (.cons hquiet (.cons hblank (.cons ha (.one hblank))))

theorem quiet_addWord (op : AddOp) : Quiet (addWord op) := by cases op <;> decide
theorem quiet_mulWord (op : MulOp) : Quiet (mulWord op) := by cases op <;> decide
theorem quiet_relWord (op : RelOp) : Quiet (relWord op) := by cases op <;> decide

mutual

theorem ExprText.quiet (hL : L.Named) :
    ∀ {e : Expr} {es : List Emission}, ExprText L e es → QuietAll es
  | _, _, .plain _ hfirst hrest => (hfirst.quiet hL).append (hrest.quiet hL)
  | _, _, @ExprText.literal _ n _ _ hrest =>
    .cons (Quiet.append (by decide) (quiet_nat n)) (hrest.quiet hL)
  | _, _, .negated _ hterm => (hterm.quiet hL).append (.one (by decide))

theorem TermsText.quiet (hL : L.Named) : ∀ {xs : List (AddOp × Term)} {es : List Emission},
    TermsText L xs es → QuietAll es
  | _, _, .nil => quietAll_nil
  | _, _, @TermsText.cons _ op _ _ _ _ hx hrest =>
    (hx.quiet hL).append (.cons (quiet_addWord op) (hrest.quiet hL))

theorem TermText.quiet (hL : L.Named) :
    ∀ {x : Term} {es : List Emission}, TermText L x es → QuietAll es
  | _, _, .mk hfirst hrest => (hfirst.quiet hL).append (hrest.quiet hL)

theorem FactorsText.quiet (hL : L.Named) : ∀ {xs : List (MulOp × Factor)} {es : List Emission},
    FactorsText L xs es → QuietAll es
  | _, _, .nil => quietAll_nil
  | _, _, @FactorsText.cons _ op _ _ _ _ hx hrest =>
    (hx.quiet hL).append (.cons (quiet_mulWord op) (hrest.quiet hL))

theorem FactorText.quiet (hL : L.Named) :
    ∀ {x : Factor} {es : List Emission}, FactorText L x es → QuietAll es
  | _, _, .name h => h.quiet hL (by decide)
  | _, _, @FactorText.number _ n => .cons (by decide) (.one (quiet_nat n))
  | _, _, .paren h => h.quiet hL

end

theorem ConditionText.quiet (hL : L.Named) {test : Condition} {es : List Emission}
    (h : ConditionText L test es) : QuietAll es := by
  cases h with
  | odd he => exact (he.quiet hL).append (.one (by decide))
  | @compare _ _ op _ _ hl hr =>
    have hop : Quiet (" " ++ relWord op ++ " ") :=
      (Quiet.append (by decide) (quiet_relWord op)).append (by decide)
    exact (hl.quiet hL).append ((hr.quiet hL).append (.one hop))

theorem quiet_call (hL : c.names.Named) {q : String} (hq : Identifier q) :
    QuietAll (callText c q) := by
  rw [callText]
  split
  · have hput : ∀ x ∈ c.names.vars, ∀ w, Quiet w → Quiet (x ++ w) := fun x hx w hw =>
      (Quiet.ofIdentifier (hL x hx)).append hw
    refine QuietAll.append ?_ (.cons (by decide) ?_)
    · intro e he
      obtain ⟨x, hx, rfl⟩ := List.mem_map.1 he
      exact hput x hx _ (by decide)
    · intro e he
      obtain ⟨x, hx, rfl⟩ := List.mem_map.1 he
      exact hput x (List.mem_reverse.1 hx) _ (by decide)
  · exact .one (.ofIdentifier hq)

mutual

theorem StatementText.quiet (hL : c.names.Named) :
    ∀ {s : Statement} {es : List Emission}, StatementText c s es →
    (∀ q, some q ∈ s.trail → Identifier q) → QuietAll es
  | _, _, .assign he hx, _ => (he.quiet hL).append (hx.quiet hL (by decide))
  | .call q, _, .call, hs => quiet_call hL (hs q List.mem_cons_self)
  | _, _, .block hss, hs => hss.quiet hL hs
  | _, _, .ifThen ht hbody, hs => by
    have hinner := hbody.quiet hL fun q hq => hs q (by simp [Statement.trail, hq])
    exact (ht.quiet hL).append (.cons (by decide) (hinner.append (.one (by decide))))
  | _, _, .whileDo ht hbody, hs => by
    have hinner := hbody.quiet hL fun q hq => hs q (by simp [Statement.trail, hq])
    exact .cons (by decide)
      ((ht.quiet hL).append (.cons (by decide) (hinner.append (.one (by decide)))))
  | _, _, .print he, _ => (he.quiet hL).append (.one (by decide))

theorem StatementsText.quiet (hL : c.names.Named) : ∀ {ss : List Statement} {es : List Emission},
    StatementsText c ss es → (∀ q, some q ∈ Statement.trail.trailAll ss → Identifier q) →
    QuietAll es
  | _, _, .nil, _ => quietAll_nil
  | _, _, .cons hs hrest, hnames =>
    (hs.quiet hL fun q hq => hnames q (List.mem_append_left _ hq)).append
      (hrest.quiet hL fun q hq => hnames q (List.mem_append_right _ hq))

end

theorem trailAll_append (ss ts : List Statement) : Statement.trail.trailAll (ss ++ ts) =
    Statement.trail.trailAll ss ++ Statement.trail.trailAll ts := by
  induction ss with
  | nil => rfl
  | cons s ss ih => rw [List.cons_append, Statement.trail.trailAll, ih, ← List.append_assoc]; rfl

/-- what is written before a statement, and that its own calls are among those of the whole -/
theorem Before.quiet (hL : c.names.Named) {s s' : Statement} {es : List Emission}
    (h : Before c s s' es) (hs : ∀ q, some q ∈ s.trail → Identifier q) :
    QuietAll es ∧ ∀ q, some q ∈ s'.trail → Identifier q := by
  induction h with
  | here => exact ⟨quietAll_nil, hs⟩
  | block hpre _ ih =>
    rw [Statement.trail, trailAll_append] at hs
    obtain ⟨hds, hcalls⟩ :=
      ih fun q hq => hs q (List.mem_append_right _ (List.mem_append_left _ hq))
    exact ⟨(hpre.quiet hL fun q hq => hs q (List.mem_append_left _ hq)).append hds, hcalls⟩
  | ifThen ht _ ih =>
    obtain ⟨hds, hcalls⟩ := ih fun q hq => hs q (by simp [Statement.trail, hq])
    exact ⟨(ht.quiet hL).append (.cons (by decide) hds), hcalls⟩
  | whileDo ht _ ih =>
    obtain ⟨hds, hcalls⟩ := ih fun q hq => hs q (by simp [Statement.trail, hq])
    exact ⟨.cons (by decide) ((ht.quiet hL).append (.cons (by decide) hds)), hcalls⟩

/-! ## the word being defined -/

/-- the definition of a word is open after some words -/
def BeingDefined (ws : List String) (w : String) : Prop :=
  ∃ before body, ws = before ++ ":" :: w :: body ∧ ":" ∉ body ∧ ";" ∉ body

theorem words_heading {q : String} (h : Solid q) : words (heading q) = [":", q] := by
  have hcolon : words ": " = [":"] := rfl
  have hblank : words " " = [] := rfl
  rw [heading, words_append_starts _ rfl, words_append_ends rfl, hcolon, h.words, hblank]
  rfl

theorem Sealed.ends_render {es : List Emission} (h : Sealed es) (pending : Bool) :
    endsInWord (render pending es) = false := by
  rcases es.eq_nil_or_concat with rfl | ⟨as, e, rfl⟩
  · rfl
  · rw [List.concat_eq_append] at h ⊢
    have hlast : endsInWord e.text = false := h.ends e (by simp)
    have hne : e.text ≠ "" := h.filled e (by simp)
    have hone : ∀ b, render b [e] = (if b && e.isSaid then " " else "") ++ e.text := fun b => by
      rw [render_cons, render, String.append_empty]
    rw [render_append, hone, ← String.append_assoc, endsInWord_append _ hne, hlast]

/-- a heading opens a definition -/
theorem beingDefined_heading {as ds : List Emission} (has : Sealed as) {q : String} (hq : Solid q)
    (hds : QuietAll ds) : BeingDefined (words (render false (as ++ .put (heading q) :: ds))) q := by
  have hrest := (hds.rendered false).words
  refine ⟨words (render false as), words (render false ds), ?_, hrest⟩
  have hend : endsInWord (heading q) = false := endsInWord_append _ (by decide)
  rw [render_append, render, words_append_ends (has.ends_render false), words_append_ends hend,
    words_heading hq]
  rfl

/-! ## calls -/

variable {p : Program} {home : Home} {t u : Translator}

/-- a translator that comes to a procedure of a program whose names are identifiers -/
structure Arrived (p : Program) (home : Home) (L : Lexicon) (t : Translator) : Prop where
  at_outer : At ⟨home.path.tail, L⟩ t
  named : L.Named
  ends : Sealed t.emissions
  word : Solid home.word
  names : ∀ x, Symbol.name x ∈ (home.block p).symbols → Identifier x

theorem procSymbols_append (ps qs : List (String × Block)) :
    Block.procSymbols (ps ++ qs) = Block.procSymbols ps ++ Block.procSymbols qs := by
  induction ps with
  | nil => rfl
  | cons q ps ih =>
    obtain ⟨q, b⟩ := q
    simp [Block.procSymbols, ih]

/-- the constants and variables of a block and some of its procedures -/
theorem Arrived.declared (h : Arrived p home L t) {consts : Option (List (String × Nat))}
    {vars : Option (List String)} {pre procs : List (String × Block)} {body : Statement}
    {es : List Emission} (hblock : home.block p = .mk consts vars procs body) (hpre : pre <+: procs)
    (hes : ProcsText home.path (L.enter consts vars) pre es) :
    ((L.enter consts vars).addProcs pre).Named ∧
      Sealed (t.emissions ++ ((vars.getD []).map variableLine ++ es)) := by
  have hnames := h.names
  rw [hblock] at hnames
  obtain ⟨post, rfl⟩ := hpre
  have hown : (L.enter consts vars).Named := h.named.enter fun x hx =>
    hnames x (by simp [Block.symbols, mem_varsSymbols hx])
  have hprocs : ∀ x, Symbol.name x ∈ Block.procSymbols pre → Identifier x := by
    intro x hx
    refine hnames x ?_
    simp [Block.symbols, procSymbols_append, hx]
  exact ⟨hown.addProcs hprocs,
    h.ends.append ((sealed_variables _).1.append (hes.spaced hown hprocs).1)⟩

theorem Comes.arrived (hnames : ∀ x, Symbol.name x ∈ p.block.symbols → Identifier x)
    (h : Comes p home t) : ∃ L, Arrived p home L t := by
  induction h with
  | program =>
    exact ⟨.empty, at_start, Lexicon.named_empty, ⟨List.forall_mem_nil _, fun _ h0 => by cases h0⟩,
      .of_check rfl, hnames⟩
  | @procedure home consts vars pre post q b body t t₁ t₂ _ _ _ hblock hown hpre ih =>
    obtain ⟨L, harrived⟩ := ih
    obtain ⟨es, hes, rfl⟩ := exec_upTo (Home.at_enter harrived.at_outer) hown hpre
    obtain ⟨hnamed, hsealed⟩ := harrived.declared hblock (List.prefix_append _ _) hes
    have hq : ∀ x, x = q ∨ Symbol.name x ∈ b.symbols → Identifier x := by
      intro x hx
      refine harrived.names x ?_
      simp only [hblock, Block.symbols, procSymbols_append, Block.procSymbols, List.mem_append,
        List.mem_cons]
      rcases hx with rfl | hx
      · simp
      · simp [hx]
    refine ⟨_, (Home.at_enter harrived.at_outer).knowing _ _, hnamed, ?_,
      .ofIdentifier (hq q (.inl rfl)), fun x hx => hq x (.inr hx)⟩
    rw [Translator.knowing, Home.emissions_enter]
    exact hsealed

/-- **The word being defined** around a statement is that of the innermost procedure. -/
theorem InBody.beingDefined {s : Statement} (h : InBody p home t s u) (ht : Arrived p home L t) :
    At ⟨home.path, L.addBlock (home.block p)⟩ u ∧
    BeingDefined (words (render false u.emissions)) home.word ∧
      ∀ q, some q ∈ s.trail → Identifier q := by
  obtain ⟨consts, vars, procs, body, es, ds, hblock, hes, hds, rfl⟩ := h.emits ht.at_outer
  obtain ⟨hnamed, hsealed⟩ := ht.declared hblock (List.prefix_refl procs) hes
  have hadd : L.addBlock (home.block p) = (L.enter consts vars).addProcs procs := by
    rw [hblock, Lexicon.addBlock]
  have hbody : ∀ q, some q ∈ body.trail → Identifier q := by
    intro q hq
    refine ht.names q ?_
    simp [hblock, Block.symbols, Statement.mem_symbols_of_trail hq]
  obtain ⟨hquiet, hcalls⟩ := hds.quiet (by rw [hadd]; exact hnamed) hbody
  refine ⟨(Home.at_enter ht.at_outer).knowing _ _, ?_, hcalls⟩
  have hdefined := beingDefined_heading hsealed ht.word hquiet
  rw [Translator.knowing, Home.emissions_enter]
  simpa only [List.append_assoc] using hdefined

/-- a call is written as a recursive one if the procedure called is around it, or has the name of
that word -/
theorem recurse_mem_callText {q : String} (hq : Identifier q) :
    "recurse" ∈ ownWords (callText c q) ↔ q ∈ c.path ∨ q = "recurse" := by
  by_cases hpath : q ∈ c.path
  · have hmem : Emission.say " recurse " ∈ callText c q := by simp [callText, hpath, recursion]
    have hword : "recurse" ∈ words (Emission.text (.say " recurse ")) := by decide
    exact iff_of_true (List.mem_flatMap.2 ⟨_, hmem, hword⟩) (.inl hpath)
  · have hown : ownWords (callText c q) = [q] := by
      rw [callText, if_neg hpath, ownWords, List.flatMap_singleton]
      exact (Solid.ofIdentifier hq).words
    rw [hown, List.mem_singleton, or_iff_right hpath, eq_comm]

/-- **Recursive calls.**  Of a call in the body of a procedure, `recurse` is written exactly if the
procedure called is one of those around the call, or has this very name.  The word being defined
there is the innermost procedure, so the call goes to another one than it says exactly if that is a
procedure around the innermost one, or is called `recurse` from outside. -/
theorem recurse_iff_enclosed {source q : String} (hparse : (parseText source).1 = .ok p)
    (h : Comes p home t) (hcall : InBody p home t (.call q) u) :
    ∃ es, exec (rules.run (Statement.call q).toValue) u = (.ok .none, u.after es) ∧
      u.emissions ++ es <+: emitted p.toValue {} ∧
      BeingDefined (words (render false u.emissions)) home.word ∧
      ("recurse" ∈ ownWords es ↔ q ∈ home.path ∨ q = "recurse") ∧
      (("recurse" ∈ ownWords es → home.path.head? = some q) ↔
        home.path.head? = some q ∨ q ∉ home.path.tail ∧ q ≠ "recurse") := by
  have hshaped := shaped_of_parse hparse
  obtain ⟨L, harrived⟩ := h.arrived fun x hx => hshaped.names x (List.mem_append_left _ hx)
  obtain ⟨hat, hdefined, hcalls⟩ := hcall.beingDefined harrived
  have hrun := exec_call hat q
  have hwords :=
    recurse_mem_callText (c := ⟨home.path, L.addBlock (home.block p)⟩) (hcalls q List.mem_cons_self)
  have hpart := hcall.emits_within.trans h.emits_within
  rw [hrun] at hpart
  refine ⟨_, hrun, hpart, hdefined, hwords, ?_⟩
  rw [hwords]
  cases home.path with
  | nil => simp
  | cons r rest =>
    by_cases hr : r = q
    · simp [hr]
    · have hne : ¬ q = r := fun h0 => hr h0.symm
      simp [hr, hne]

/-- a procedure that calls itself until a variable is zero -/
def countdownBlock : Block :=
  .mk none none [] (.block
    [.assign "x" (.mk none (.mk (.name "x") []) [(.minus, .mk (.number 1) [])]),
      .ifThen (.compare (.mk none (.mk (.name "x") []) []) .gt (.mk none (.mk (.number 0) []) []))
        (.call "p")])

def countdown : Program := ⟨.mk none (some ["x"]) [("p", countdownBlock)] (.call "p")⟩

set_option maxRecDepth 2000 in
theorem countdown_recurses :
    (parseText "VAR x; PROCEDURE p; BEGIN x := x - 1; IF x > 0 THEN CALL p END; CALL p .").1 =
      .ok countdown ∧ ∃ t u es, Comes countdown [("p", countdownBlock)] t ∧
        InBody countdown [("p", countdownBlock)] t (.call "p") u ∧
        exec (rules.run (Statement.call "p").toValue) u = (.ok .none, u.after es) ∧
        BeingDefined (words (render false u.emissions)) "p" ∧ "recurse" ∈ ownWords es := by
  have hparse :
      (parseText "VAR x; PROCEDURE p; BEGIN x := x - 1; IF x > 0 THEN CALL p END; CALL p .").1 =
      .ok countdown := by with_unfolding_all rfl
  obtain ⟨v, t', hrun⟩ : ∃ v t', exec (rules.run countdown.toValue) {} = (.ok v, t') :=
    ⟨_, _, by with_unfolding_all rfl⟩
  obtain ⟨t, _, _, hcomes, hproc⟩ := comes_of_ok hrun (.procedure .program List.mem_cons_self)
  have hholds : Encloses countdownBlock.body (.call "p") :=
    .block (List.mem_cons_of_mem _ List.mem_cons_self) (.ifThen .here)
  obtain ⟨u, _, _, hbody, -⟩ := inBody_of_ok hproc hholds
  obtain ⟨es, hcall, -, hdefined, hwords, -⟩ := recurse_iff_enclosed hparse hcomes hbody
  exact ⟨hparse, t, u, es, hcomes, hbody, hcall, hdefined, hwords.2 (.inl List.mem_cons_self)⟩

/-- a procedure that calls the one around it -/
def innerCaller : Block := .mk none none [] (.call "p")

def outerCaller : Block := .mk none none [("q", innerCaller)] (.call "q")

def callOutward : Program := ⟨.mk none none [("p", outerCaller)] (.call "p")⟩

/-- **A call of an outer procedure recurses in the inner one.**  In the body of `q`, the call of `p`
is written as `recurse`, which goes to `q`. -/
theorem outer_call_recurses :
    (parseText "PROCEDURE p; PROCEDURE q; CALL p; CALL q; CALL p .").1 = .ok callOutward ∧
      translate callOutward.toValue {} =
        (.ok .none, ": q  recurse  ;\n: p q ;\n: run p ;\nrun\n\n", {}) ∧
      ∃ t u, Comes callOutward [("q", innerCaller), ("p", outerCaller)] t ∧
        InBody callOutward [("q", innerCaller), ("p", outerCaller)] t (.call "p") u ∧
        exec (rules.run (Statement.call "p").toValue) u = (.ok .none, u.after [.say " recurse "]) ∧
        u.path.head? = some (.str "q") ∧ BeingDefined (words (render false u.emissions)) "q" := by
  refine ⟨by with_unfolding_all rfl, by with_unfolding_all rfl, _, _,
    .first (.first .program rfl (by with_unfolding_all rfl)) rfl (by with_unfolding_all rfl),
    ⟨none, none, [], .call "p", _, _,
      rfl, by with_unfolding_all rfl, .here⟩, by with_unfolding_all rfl,
    by with_unfolding_all rfl, [], [], ?_, List.not_mem_nil, List.not_mem_nil⟩
  with_unfolding_all rfl

end Pl0Kit.Forth
