import Pl0Kit.Proofs.NestedProcedures
import Pl0Kit.Proofs.OddTests
import Pl0Kit.Proofs.Quotations
import Pl0Kit.Proofs.TargetWords

/-!
# Loops of the Forth dialects

A loop is written as a quotation that holds its body and then its test, with `while` behind it.  So
the body is run before the first test.  `StatementCode.reads` shows that what is written for a
statement is read as code of its own, whatever stands around it, so that this is what the text of a
loop means, at any depth.
-/

namespace Pl0Kit.Generator

open Postfix Text

/-! ## statements as code -/

variable {T : Target} {fs : Frames}

/-- the words of some events -/
def wordsBy (T : Target) (es : List Event) : List String := es.flatMap fun e => words (T.text e)

@[simp] theorem wordsBy_append (es ds : List Event) :
    wordsBy T (es ++ ds) = wordsBy T es ++ wordsBy T ds :=
  List.flatMap_append

@[simp] theorem wordsBy_cons (e : Event) (es : List Event) :
    wordsBy T (e :: es) = words (T.text e) ++ wordsBy T es := rfl

@[simp] theorem wordsBy_nil : wordsBy T [] = [] := rfl

theorem Ordinary.not_structure {w : String} (h : Ordinary w) : w ∉ ["[", "]", "if", "then"] := by
  intro hw
  rcases List.mem_cons.1 hw with rfl | hw
  · exact absurd h (by decide)
  rcases List.mem_cons.1 hw with rfl | hw
  · exact absurd h (by decide)
  exact h.1 hw

theorem reads_simple (hT : T ∈ dialects) {es : List Event} (h : ∀ e ∈ es, e.Simple) :
    Reads (wordsBy T es) ((wordsBy T es).map .word) := by
  refine .words fun w hw => ?_
  obtain ⟨e, he, hw⟩ := List.mem_flatMap.1 hw
  exact ((h e he).ordinary hT w hw).not_structure

theorem words_loopOpen (hT : T ∈ dialects) (top bottom : String) :
    words (T.text (.loopOpen top bottom)) = ["["] := by
  rcases mem_dialects hT with rfl | rfl | rfl
  · dsimp only [retro11]
    decide
  · dsimp only [retro12]
    decide
  · dsimp only [parable]
    decide

theorem words_loopClose (hT : T ∈ dialects) (top bottom : String) :
    words (T.text (.loopClose top bottom)) = ["]", "while"] := by
  rcases mem_dialects hT with rfl | rfl | rfl
  · dsimp only [retro11]
    decide
  · dsimp only [retro12]
    decide
  · dsimp only [parable]
    decide

/-- a conditional is written in one of two ways -/
theorem words_branch (hT : T ∈ dialects) (l : String) :
    words (T.text (.branch l)) = ["if"] ∧ words (T.text (.join l)) = ["then"] ∨
      words (T.text (.branch l)) = ["["] ∧
        ∃ v, (v = "if" ∨ v = "if-true") ∧ words (T.text (.join l)) = ["]", v] := by
  rcases mem_dialects hT with rfl | rfl | rfl
  · refine .inl ?_
    dsimp only [retro11]
    decide
  · refine .inr ⟨?_, "if", .inl rfl, ?_⟩ <;>
    · dsimp only [retro12]
      decide
  · refine .inr ⟨?_, "if-true", .inr rfl, ?_⟩ <;>
    · dsimp only [parable]
      decide

theorem reads_branch (hT : T ∈ dialects) (l : String) {es : List Event} {cs : List Code}
    (h : Reads (wordsBy T es) cs) :
    Reads (wordsBy T (.branch l :: (es ++ [.join l]))) [.branch cs] := by
  rw [wordsBy_cons, wordsBy_append, wordsBy_cons, wordsBy_nil, List.append_nil]
  rcases words_branch hT l with ⟨hbranch, hjoin⟩ | ⟨hbranch, v, hv, hjoin⟩
  · rw [hbranch, hjoin]
    exact h.branch
  · rw [hbranch, hjoin]
    exact h.quotedBranch hv

theorem reads_loop (hT : T ∈ dialects) (top bottom : String) {es : List Event} {cs : List Code}
    (h : Reads (wordsBy T es) cs) :
    Reads (wordsBy T (.loopOpen top bottom :: (es ++ [.loopClose top bottom]))) [.loop cs] := by
  rw [wordsBy_cons, wordsBy_append, wordsBy_cons, wordsBy_nil, List.append_nil, words_loopOpen hT,
    words_loopClose hT]
  exact h.loop

theorem loopEvents_eq (hT : T ∈ dialects) (top bottom : String) (cs ds : List Event) :
    loopEvents T top bottom cs ds = ds ++ cs := if_neg (testLast hT)

mutual

/-- what is written for a statement is code -/
theorem StatementCode.reads (hT : T ∈ dialects) (hfs : ∀ f ∈ fs, Scoped OneWord OneWord f) :
    ∀ {n m : Nat} {s : Statement} {es : List Event}, StatementCode T fs n s m es →
      ∃ cs, Reads (wordsBy T es) cs
  | _, _, _, _, .assign he hf => by
    obtain ⟨l, rfl, hl⟩ := Scoped.find_var hfs hf
    exact ⟨_,
      reads_simple hT (List.forall_mem_append.2 ⟨he.simple hfs, List.forall_mem_singleton.2 hl⟩)⟩
  | _, _, _, _, .call hf => by
    obtain ⟨l, rfl, hl⟩ := Scoped.find_proc hfs hf
    exact ⟨_, reads_simple hT (List.forall_mem_singleton.2 hl)⟩
  | _, _, _, _, .block hs => hs.reads hT hfs
  | n, _, _, _, .ifThen hc hs => by
    obtain ⟨bs, hbs⟩ := hs.reads hT hfs
    have hbranch := reads_branch hT (T.label "if_false" (n + 1)) hbs
    rw [wordsBy_append]
    exact ⟨_, (reads_simple hT (hc.simple hT hfs)).append hbranch⟩
  | _, _, _, _, @StatementCode.whileDo _ _ _ _ _ _ cs ds top bottom _ _ hc hs => by
    obtain ⟨bs, hbs⟩ := hs.reads hT hfs
    have hloop := hbs.append (reads_simple hT (hc.simple hT hfs))
    rw [← wordsBy_append, ← loopEvents_eq hT top bottom] at hloop
    exact ⟨_, reads_loop hT top bottom hloop⟩
  | _, _, _, _, .print he =>
    ⟨_, reads_simple hT
      (List.forall_mem_append.2 ⟨he.simple hfs, List.forall_mem_singleton.2 trivial⟩)⟩

theorem StatementsCode.reads (hT : T ∈ dialects) (hfs : ∀ f ∈ fs, Scoped OneWord OneWord f) :
    ∀ {n m : Nat} {ss : List Statement} {es : List Event}, StatementsCode T fs n ss m es →
      ∃ cs, Reads (wordsBy T es) cs
  | _, _, _, _, .nil => ⟨[], .nil⟩
  | _, _, _, _, .cons hs hr => by
    obtain ⟨cs, hcs⟩ := hs.reads hT hfs
    obtain ⟨ds, hds⟩ := hr.reads hT hfs
    rw [wordsBy_append]
    exact ⟨cs ++ ds, hcs.append hds⟩

end

/-! ## loops in a text -/

/-- on its way to `text`, with `before` already written, the generator visits the node `v` and
writes `own` -/
def Wrote (T : Target) (text : String) (v : Value) (before own : String) : Prop :=
  ∃ g g' r, Act.exec ((rules T).run v) g = (.ok r, g') ∧ before = render T g.events ∧
    before ++ own = render T g'.events ∧ ∃ rest, text = before ++ own ++ rest

theorem Emits.wrote {v : Value} {n m : Nat} {pre es : List Event}
    (h : Emits ((rules T).run v) ⟨fs, n, pre⟩ m es) (post : List Event) :
    Wrote T (render T (pre ++ (es ++ post))) v (render T pre) (render T es) := by
  obtain ⟨r, hr⟩ := h
  refine ⟨_, _, r, hr, rfl, (render_append T pre es).symm, render T post, ?_⟩
  rw [render_append, render_append, String.append_assoc]

/-- what is written for a loop: a quotation of the body and the test, with `while` behind it -/
structure LoopIn (T : Target) (text : String) (c : Condition) (s : Statement)
    (before head body test tail : String) : Prop where
  whole : Wrote T text (Statement.whileDo c s).toValue before (head ++ (body ++ (test ++ tail)))
  inner : Wrote T text s.toValue (before ++ head) body
  check : Wrote T text c.toValue (before ++ (head ++ body)) test
  opens : words head = ["["]
  closes : words tail = ["]", "while"]

theorem StatementCode.loopIn (hT : T ∈ dialects) (hfs : ∀ f ∈ fs, Worded f) {n m : Nat}
    {c : Condition} {s : Statement} {ds : List Event} (h : StatementCode T fs n (.whileDo c s) m ds)
    (pre post : List Event) :
    ∃ k k' top bottom bs ts, StatementCode T fs k s k' bs ∧ ConditionCode T fs c ts ∧
      ds = .loopOpen top bottom :: (bs ++ (ts ++ [.loopClose top bottom])) ∧
      LoopIn T (render T (pre ++ (ds ++ post))) c s (render T pre) (render T [.loopOpen top bottom])
        (render T bs) (render T ts) (render T [.loopClose top bottom]) := by
  have hwhole := (h.emits (g := ⟨fs, n, pre⟩) hfs rfl rfl).wrote post
  cases h with
  | @whileDo _ _ _ _ ts bs top bottom htop hbottom hc hs =>
    rw [loopEvents_eq hT, List.append_assoc] at hwhole ⊢
    have hinner := (hs.emits (g := ⟨fs, n + 2, pre ++ [.loopOpen top bottom]⟩) hfs rfl rfl).wrote
      (ts ++ ([.loopClose top bottom] ++ post))
    have hcheck := (hc.emits (T := T) (g := ⟨fs, n, pre ++ ([.loopOpen top bottom] ++ bs)⟩)
      hfs rfl).wrote ([.loopClose top bottom] ++ post)
    refine ⟨n + 2, m, top, bottom, bs, ts, hs, hc, rfl, ?_, ?_, ?_, ?_, ?_⟩
    · rw [← render_append, ← render_append, ← render_append]
      exact hwhole
    · rw [← render_append]
      simpa using hinner
    · rw [← render_append, ← render_append]
      simpa using hcheck
    · rw [words_render hT]
      exact congrArg (· ++ []) (words_loopOpen hT top bottom)
    · rw [words_render hT]
      exact congrArg (· ++ []) (words_loopClose hT top bottom)

/-- the texts of a loop and of its parts run as code with this loop -/
theorem runs_loop {σ : Type} (M : Dialect σ) (hT : T ∈ dialects) {top bottom : String}
    {bs ts : List Event} {cs ds : List Code} (hbody : Reads (wordsBy T bs) cs)
    (htest : Reads (wordsBy T ts) ds) {a b : σ} :
    RunsText M (render T [.loopOpen top bottom] ++ (render T bs ++ (render T ts ++
        render T [.loopClose top bottom]))) a b ↔
      ∃ n, Passes (RunsText M (render T bs)) (RunsText M (render T ts)) M.flag (n + 1) a b := by
  have hall : Reads (wordsBy T (.loopOpen top bottom :: ((bs ++ ts) ++ [.loopClose top bottom])))
      [.loop (cs ++ ds)] := by
    refine reads_loop hT top bottom ?_
    rw [wordsBy_append]
    exact hbody.append htest
  rw [List.append_assoc] at hall
  rw [wordsBy, ← words_render hT] at hbody htest hall
  rw [← render_append, ← render_append, ← render_append, hbody.runs, htest.runs]
  exact (iff_of_eq (congrFun (congrFun hall.runs a) b)).trans exec_loop

end Pl0Kit.Generator

namespace Pl0Kit

open Generator Postfix Text

/-- **Loops of the Forth dialects run before they test.**  Let `WHILE c DO s` be part of a parsed
program that is translated to Retro 11, Retro 12 or Parable.  Its text is a quotation of the code of
`s` and then that of `c`, with `while` behind it; and with any meaning of the words, the text runs
from `a` to `b` exactly if there are one or more passes of `s` and `c` from `a` to `b`, where `c`
leaves a true flag after each but the last.  So the code of `s` is run at least once, whatever `c`
is before. -/
theorem loops_run_before_test {T : Target} (hT : T ∈ dialects) {source text : String} {p : Program}
    {f : Frame} {r : Value} {g : Gen} (hparse : (parseText source).1 = .ok p)
    (hcompile : translate T p.toValue {} = (.ok (f, r), text, g)) {q : Part} (hq : q ∈ p.parts)
    {c : Condition} {s : Statement} (hloop : .whileDo c s ∈ q.body.nodes) :
    ∃ before head body test tail, LoopIn T text c s before head body test tail ∧
      ∀ {σ : Type} (M : Dialect σ) (a b : σ), RunsText M (head ++ (body ++ (test ++ tail))) a b ↔
        ∃ n, Passes (RunsText M body) (RunsText M test) M.flag (n + 1) a b := by
  obtain ⟨es, hcode, rfl⟩ := program_emits hcompile
  have hwritten := hcode.written hT (shaped_of_parse hparse)
  obtain ⟨fs, _, _, cs, hfs, hbody, hcs⟩ := hwritten.bodies q.body (List.mem_map_of_mem hq)
  obtain ⟨_, _, ds, hds, hpart⟩ := hbody.nodes _ hloop
  obtain ⟨pre, post, hes⟩ := hpart.trans hcs
  obtain ⟨_, _, top, bottom, bs, ts, hs, hc, rfl, hin⟩ :=
    hds.loopIn hT (fun f hf => (hfs f hf).worded) pre post
  rw [← List.append_assoc, hes] at hin
  obtain ⟨code, hreads⟩ := hs.reads hT hfs
  exact ⟨_, _, _, _, _, hin, fun M a b =>
    runs_loop M hT hreads (reads_simple hT (hc.simple hT hfs))⟩

/-- `1 < 0` -/
def oneBelowZero : Condition := .compare (justNumber 1) .lt (justNumber 0)

/-- a loop inside another one, in a procedure -/
def nestedLoops : Block :=
  .mk none none [] (.whileDo (.compare (justName "x") .lt (justNumber 3))
    (.block [.whileDo oneBelowZero (.print (justNumber 7)), .assign "x" (justNumber 3)]))

def callNestedLoops : Program := ⟨.mk none (some ["x"]) [("p", nestedLoops)] (.call "p")⟩

def callNestedLoopsText : String :=
  "'PL0:v:x1 var\n````\n\n# Procedure p\n\n````\n:PL0:p:p2\n" ++
    "[ [ #7 putn nl #1 #0 lt? ] while #3 !PL0:v:x1 @PL0:v:x1 #3 lt? ] while ;\n\n" ++
    ":main\nPL0:p:p2 ;\nmain\n"

set_option maxRecDepth 2000 in
/-- the inner loop prints before it tests -/
theorem nestedLoops_run_before_test :
    ∃ before head body test tail,
      LoopIn retro12 callNestedLoopsText oneBelowZero (.print (justNumber 7))
        before head body test tail ∧
      ∀ {σ : Type} (M : Dialect σ) (a b : σ), RunsText M (head ++ (body ++ (test ++ tail))) a b ↔
        ∃ n, Passes (RunsText M body) (RunsText M test) M.flag (n + 1) a b := by
  have hparse :
      (parseText
        "var x; procedure p; while x < 3 do begin while 1 < 0 do ! 7; x := 3 end; call p.").1 =
      .ok callNestedLoops := by with_unfolding_all rfl
  have hcompile : translate retro12 callNestedLoops.toValue {} =
      (.ok ({ vars := [(.str "x", .str "PL0:v:x1")], procs := [(.str "p", .str "PL0:p:p2")] },
        .none), callNestedLoopsText, { labels := 6 }) := by with_unfolding_all rfl
  have hpart : ⟨nestedLoops.body, [(nestedLoops, 1), (callNestedLoops.block, 0)]⟩ ∈
      callNestedLoops.parts :=
    List.mem_cons_self
  have hnode : .whileDo oneBelowZero (.print (justNumber 7)) ∈ nestedLoops.body.nodes :=
    List.mem_cons_of_mem _ (List.mem_cons_of_mem _ List.mem_cons_self)
  exact loops_run_before_test (.tail _ (.head _)) hparse hcompile hpart hnode

/-! ## a loop whose test is never true -/

/-- some words of Retro 12 on a stack and what is printed -/
def printingStep (w : String) (s : List Int × List Int) : Option (List Int × List Int) :=
  match w, s with
  | "nl", s => some s
  | "putn", (a :: st, out) => some (st, out ++ [a])
  | "lt?", (b :: a :: st, out) => some ((if a < b then -1 else 0) :: st, out)
  | "#0", (st, out) => some (0 :: st, out)
  | "#1", (st, out) => some (1 :: st, out)
  | "#7", (st, out) => some (7 :: st, out)
  | _, _ => none

def printing : Dialect (List Int × List Int) where
  word w s t := printingStep w s = some t
  flag s b t := s.1.head? = some (if b then -1 else 0) ∧ t = (s.1.tail, s.2)

theorem exec_printing {ws : List String} {s t : List Int × List Int} :
    Exec printing (ws.map .word) s t ↔ ws.foldlM (fun s w => printingStep w s) s = some t := by
  induction ws generalizing s with
  | nil =>
    refine ⟨fun h => ?_, fun h => ?_⟩
    · cases h
      rfl
    · cases h
      exact .nil
  | cons w ws ih =>
    rw [List.map_cons, List.foldlM_cons]
    refine ⟨fun h => ?_, fun h => ?_⟩
    · cases h with
      | word hw hrest => exact Option.bind_eq_some_iff.2 ⟨_, hw, ih.1 hrest⟩
    · obtain ⟨u, hw, hrest⟩ := Option.bind_eq_some_iff.1 h
      exact .word hw (ih.2 hrest)

/-- `WHILE 1 < 0 DO ! 7` -/
def printNever : Program := ⟨.mk none none [] (.whileDo oneBelowZero (.print (justNumber 7)))⟩

/-- **A loop with a false test prints**: its test leaves a false flag at the start, and every run of
it prints 7. -/
theorem untrue_loop_prints :
    (parseText "while 1 < 0 do ! 7 .").1 = .ok printNever ∧
    (translate retro12 printNever.toValue {}).2.1 =
      ":main\n" ++ "[ #7 putn nl #1 #0 lt? ] while " ++ ";\nmain\n" ∧
    RunsText printing "#1 #0 lt? " ([], []) ([0], []) ∧ printing.flag ([0], []) false ([], []) ∧
    ∀ s, RunsText printing "[ #7 putn nl #1 #0 lt? ] while " ([], []) s ↔ s = ([], [7]) := by
  have htest : Reads (words "#1 #0 lt? ") (["#1", "#0", "lt?"].map .word) := by
    rw [show words "#1 #0 lt? " = ["#1", "#0", "lt?"] by decide +kernel]
    exact .words (by decide)
  have hloop : Reads (words "[ #7 putn nl #1 #0 lt? ] while ")
      [.loop (["#7", "putn", "nl"].map .word ++ ["#1", "#0", "lt?"].map .word)] := by
    rw [show words "[ #7 putn nl #1 #0 lt? ] while " =
      "[" :: (["#7", "putn", "nl", "#1", "#0", "lt?"] ++ ["]", "while"]) by decide +kernel]
    exact .loop (.words (by decide))
  refine ⟨by with_unfolding_all rfl, by decide +kernel, ?_, ⟨rfl, rfl⟩, fun s => ?_⟩
  · rw [htest.runs]
    exact exec_printing.2 (by decide)
  · rw [hloop.runs, exec_loop]
    have hbody : ["#7", "putn", "nl"].foldlM (fun s w => printingStep w s) ([], []) =
        some ([], [7]) := by decide
    have hflag : ["#1", "#0", "lt?"].foldlM (fun s w => printingStep w s) ([], [7]) =
        some ([0], [7]) := by decide
    constructor
    · rintro ⟨n, hpass⟩
      cases hpass with
      | last hb ht hf =>
        cases hbody.symm.trans (exec_printing.1 hb)
        cases hflag.symm.trans (exec_printing.1 ht)
        exact hf.2
      | again hb ht hf _ =>
        cases hbody.symm.trans (exec_printing.1 hb)
        cases hflag.symm.trans (exec_printing.1 ht)
        cases hf.1
    · rintro rfl
      exact ⟨0, .last (exec_printing.2 hbody) (exec_printing.2 hflag) ⟨rfl, rfl⟩⟩

end Pl0Kit
