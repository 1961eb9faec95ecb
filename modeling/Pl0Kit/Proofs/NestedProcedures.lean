import Mathlib.Data.List.Perm.Subperm
import Pl0Kit.Proofs.CompiledExpressions
import Pl0Kit.Proofs.Fragment
import Pl0Kit.Proofs.LexicalScope

/-!
# Procedures in compiled code

`BlockCompiled` says what a text needs for a block: a label for each procedure of the block, however
deep, with the code of its body and a return behind it, and calls that go to the labels of the
procedures in scope.

The code generator passes over the procedures of procedures.  So a scoped program gets such a text
exactly if no procedure has procedures of its own (`procedures_compiled_iff`); else the name of an
inner procedure is unknown, or stands for a procedure further out.
-/

namespace Pl0Kit

open Machine Generator

/-! ## procedures in a text -/

namespace Machine

/-- the label that a line calls -/
def AsmLine.call? : AsmLine → Option String
  | .words [w, l] => if w = Opcode.call.name.toList then some (String.ofList l) else none
  | _ => none

/-- the labels that a text calls -/
def callsIn (text : String) : List String := (asmLines text.toList).filterMap AsmLine.call?

end Machine

/-- the labels of the procedures that names stand for -/
abbrev Labels := String → Option String

/-- names that stand for something else stand for no procedure -/
def Labels.hide (env : Labels) (xs : List String) : Labels :=
  fun x => if x ∈ xs then none else env x

/-- the code of a statement stands in a text between the lines `first` and `last`, and calls the
labels that `env` has for the procedures -/
def StandsBetween (text : String) (env : Labels) (first last : AsmLine) (s : Statement) : Prop :=
  ∃ start code before after, StatementIn text s start (start ++ code) ∧
    asmLines start.toList = before ++ [first] ∧
    asmLines text.toList = before ++ first :: (asmLines code.toList ++ last :: after) ∧
    (callsIn code).map some = s.calls.map env

mutual

/-- a text holds the code of the body of a block between two lines, and that of all procedures
inside it behind the labels `ls` -/
inductive BlockCompiled (text : String) : Labels → AsmLine → AsmLine → Block → List String → Prop
  | mk {env env' : Labels} {first last : AsmLine} {consts : Option (List (String × Nat))}
      {vars : Option (List String)} {procs : List (String × Block)} {body : Statement}
      {locals ls : List String} :
      locals = (consts.getD []).map Prod.fst ++ vars.getD [] →
      ProcsCompiled text locals env procs env' ls →
      StandsBetween text (env'.hide locals) first last body →
        BlockCompiled text env first last (.mk consts vars procs body) ls

/-- the same for the procedures of a block with the constants and variables `locals`: each is in
scope in its own block and in what follows -/
inductive ProcsCompiled (text : String) :
    List String → Labels → List (String × Block) → Labels → List String → Prop
  | nil {locals : List String} {env : Labels} : ProcsCompiled text locals env [] env []
  | cons {locals inner ls : List String} {env env' : Labels} {q l : String} {n : Nat} {b : Block}
      {rest : List (String × Block)} :
      l = procLabel assembly n q →
      BlockCompiled text (Labels.hide (Function.update env q (some l)) locals) (.label l.toList)
        (.words [Opcode.ret.name.toList]) b inner →
      ProcsCompiled text locals (Function.update env q (some l)) rest env' ls →
        ProcsCompiled text locals env ((q, b) :: rest) env' (l :: (inner ++ ls))

end

/-- a text holds the code of a program and of all its procedures, each with a label of its own -/
def ProceduresCompiled (text : String) (p : Program) : Prop :=
  ∃ ls, ls.Nodup ∧ BlockCompiled text (fun _ => none) (.label "main".toList)
    (.words [Opcode.halt.name.toList]) p.block ls

namespace Generator

variable {fs : Frames} {n m : Nat} {s : Statement} {es ds : List Event} {env : Labels}

/-! ## events of statements -/

/-- an event of a statement; the label that it places shows the kind of statement -/
def Event.Inner : Event → Prop
  | .join l => ∃ n, l = serialLabel "if_false" n
  | .loopOpen top _ => ∃ n, top = serialLabel "while_start" n
  | .loopClose _ bottom => ∃ n, bottom = serialLabel "while_end" n
  | .start | .cell _ | .procHead _ | .procOpen _ | .procClose _ | .mainOpen | .mainClose => False
  | _ => True

theorem Event.Computes.inner {e : Event} (h : e.Computes) : e.Inner := by
  cases e with
  | number _ | constant _ | load _ | add | sub | mul | negate | compare _ | odd => trivial
  | _ => exact h.elim

mutual

theorem StatementCode.inner : ∀ {n m : Nat} {s : Statement} {es : List Event},
    StatementCode assembly fs n s m es → ∀ ev ∈ es, ev.Inner
  | _, _, _, _, .assign he _ =>
    List.forall_mem_append.2 ⟨fun ev hev => (he.event ev hev).inner,
      List.forall_mem_singleton.2 trivial⟩
  | _, _, _, _, .call _ => List.forall_mem_singleton.2 trivial
  | _, _, _, _, .block hs => hs.inner
  | _, _, _, _, .ifThen hc hs =>
    List.forall_mem_append.2 ⟨fun ev hev => (hc.event ev hev).inner,
      List.forall_mem_cons.2
        ⟨trivial, List.forall_mem_append.2 ⟨hs.inner, List.forall_mem_singleton.2 ⟨_, rfl⟩⟩⟩⟩
  | _, _, _, _, .whileDo ht hb hc hs =>
    List.forall_mem_cons.2 ⟨⟨_, ht⟩, List.forall_mem_append.2 ⟨List.forall_mem_append.2
      ⟨fun ev hev => (hc.event ev hev).inner, List.forall_mem_cons.2 ⟨trivial, hs.inner⟩⟩,
        List.forall_mem_singleton.2 ⟨_, hb⟩⟩⟩
  | _, _, _, _, .print he =>
    List.forall_mem_append.2 ⟨fun ev hev => (he.event ev hev).inner,
      List.forall_mem_singleton.2 trivial⟩

theorem StatementsCode.inner : ∀ {n m : Nat} {ss : List Statement} {es : List Event},
    StatementsCode assembly fs n ss m es → ∀ ev ∈ es, ev.Inner
  | _, _, _, _, .nil => nofun
  | _, _, _, _, .cons hs hr => List.forall_mem_append.2 ⟨hs.inner, hr.inner⟩

end

/-! ## calls -/

/-- the label that an event calls -/
def Event.call? : Event → Option String
  | .call l => some l
  | _ => none

def callsOf (es : List Event) : List String := es.filterMap Event.call?

@[simp] theorem callsOf_nil : callsOf [] = [] := rfl

@[simp] theorem callsOf_append (es ds : List Event) :
    callsOf (es ++ ds) = callsOf es ++ callsOf ds :=
  List.filterMap_append

@[simp] theorem callsOf_cons (e : Event) (es : List Event) :
    callsOf (e :: es) = e.call?.toList ++ callsOf es := by
  rw [callsOf, List.filterMap_cons]
  cases e.call? <;> rfl

theorem callsOf_computes (h : ∀ ev ∈ es, ev.Computes) : callsOf es = [] := by
  refine List.filterMap_eq_nil_iff.2 fun e he => ?_
  have hcomputes := h e he
  cases e with
  | call l => exact hcomputes.elim
  | _ => rfl

theorem callsIn_render (h : ∀ e ∈ es, e.Plain) : callsIn (render assembly es) = callsOf es := by
  have hevent : ∀ e : Event, (e.items.map Item.line).filterMap AsmLine.call? = e.call?.toList := by
    intro e
    cases e with
    | call l => simp [Event.items, Item.line, AsmLine.call?, Event.call?]
    | _ => rfl
  rw [callsIn, asmLines_render h]
  clear h
  induction es with
  | nil => rfl
  | cons e es ih =>
    rw [itemsOf_cons, List.map_append, List.filterMap_append, ih, hevent, callsOf_cons]

/-- procedures that are found in the frames `fs` have the labels `env` -/
def Calls (fs : Frames) (env : Labels) : Prop :=
  ∀ ⦃q : String⦄ ⦃v : Value⦄ ⦃k : Nat⦄, fs.find? (.str q) = some (.proc, v, k) →
    ∃ l, v = .str l ∧ env q = some l

theorem Calls.nil : Calls [] env := nofun

mutual

/-- the code of a statement calls the procedures that it names -/
theorem StatementCode.calls (henv : Calls fs env) : ∀ {n m : Nat} {s : Statement} {es : List Event},
    StatementCode assembly fs n s m es → (callsOf es).map some = s.calls.map env
  | _, _, _, _, .assign he _ => by
    rw [callsOf_append, callsOf_computes he.event]
    rfl
  | _, _, _, _, .call hq => by
    obtain ⟨l, rfl, hl⟩ := henv hq
    exact congrArg (fun r => [r]) hl.symm
  | _, _, _, _, .block hs => hs.calls henv
  | _, _, _, _, .ifThen hc hs => by
    simpa [callsOf_computes hc.event, Event.call?, Statement.calls] using hs.calls henv
  | _, _, _, _, .whileDo _ _ hc hs => by
    simpa [loopEvents, assembly, callsOf_computes hc.event, Event.call?, Statement.calls]
      using hs.calls henv
  | _, _, _, _, .print he => by
    rw [callsOf_append, callsOf_computes he.event]
    rfl

theorem StatementsCode.calls (henv : Calls fs env) : ∀ {n m : Nat} {ss : List Statement}
    {es : List Event}, StatementsCode assembly fs n ss m es →
      (callsOf es).map some = (Statement.calls.all ss).map env
  | _, _, _, _, .nil => rfl
  | _, _, _, _, .cons hs hr => by
    rw [callsOf_append, List.map_append, hs.calls henv, hr.calls henv, Statement.calls.all,
      List.map_append]

end

/-- the frame of a block with the constants and variables `locals`, whose procedures have the labels
`env` -/
structure BlockFrame (f : Frame) (locals : List String) (env : Labels) : Prop where
  names : ∃ d : Names, f.Has d ∧ locals = d.consts ++ d.vars
  procs : ∀ q v, f.procs.get? (.str q) = some v → ∃ l, v = .str l ∧ env q = some l
  worded : Worded f

theorem blockFrame_declared (n : Nat) (consts : Option (List (String × Nat)))
    (vars : Option (List String)) (env : Labels) :
    BlockFrame (declared assembly n {} consts vars) ((consts.getD []).map Prod.fst ++ vars.getD [])
      env := by
  have hhas := has_declared assembly n consts vars
  refine ⟨⟨_, hhas, rfl⟩, fun q v hv => ?_, Scoped.empty.declared consts fun _ _ => trivial⟩
  have hknown := (hhas.procs q).1 (by rw [hv]; rfl)
  cases hknown

theorem BlockFrame.declare {f : Frame} {locals : List String} (h : BlockFrame f locals env)
    (q l : String) :
    BlockFrame (f.declare (.str q) (.str l)) locals (Function.update env q (some l)) := by
  obtain ⟨d, hd, hlocals⟩ := h.names
  refine ⟨⟨_, hd.declare q (.str l), hlocals⟩, fun x v hv => ?_, h.worded.declare _ trivial⟩
  rw [Frame.declare, Table.get?_put] at hv
  by_cases hx : x = q
  · subst hx
    rw [if_pos rfl] at hv
    cases hv
    exact ⟨l, rfl, Function.update_self x (some l) env⟩
  · rw [if_neg hx] at hv
    rw [Function.update_of_ne hx]
    exact h.procs x v hv

/-- procedures are found in the frame of a block, unless they are hidden, or further out -/
theorem BlockFrame.calls {f : Frame} {locals : List String} (h : BlockFrame f locals env)
    (hfs : Calls fs env) : Calls (f :: fs) (env.hide locals) := by
  obtain ⟨d, hd, rfl⟩ := h.names
  intro q v k hq
  have hkind := hd.kind q
  suffices hfound : (d.kind? q = some .proc ∨ d.kind? q = none) ∧ ∃ l, v = .str l ∧
      env q = some l by
    obtain ⟨hnone, l, hv, hl⟩ := hfound
    exact ⟨l, hv, by rw [Labels.hide, if_neg (Names.not_mem_of_kind? hnone), hl]⟩
  rw [Frames.find?] at hq
  cases hl : f.lookup (.str q) with
  | some r =>
    obtain ⟨kind, w⟩ := r
    rw [hl] at hq hkind
    cases hq
    exact ⟨.inl hkind.symm, h.procs q v (Frame.get?_of_lookup hl)⟩
  | none =>
    rw [hl] at hq hkind
    obtain ⟨⟨kind, w, j⟩, hr, he⟩ := Option.map_eq_some_iff.1 hq
    cases he
    exact ⟨.inr hkind.symm, hfs hr⟩

/-- the code of a statement stands in the text of a program between the lines of the events around
it -/
theorem StatementCode.standsBetween (h : StatementCode assembly fs n s m ds)
    (hfs : ∀ f ∈ fs, Worded f) (henv : Calls fs env) (hplain : ∀ e ∈ es, e.Plain)
    {pre post : List Event} {first last : Event} {x y : Item}
    (hes : es = pre ++ first :: (ds ++ last :: post)) (hx : first.items = [x])
    (hy : last.items = [y]) : StandsBetween (render assembly es) env x.line y.line s := by
  have hes' : es = (pre ++ [first]) ++ (ds ++ last :: post) := by rw [hes, List.append_assoc]; rfl
  have hin := h.statementIn hfs (pre ++ [first]) (last :: post)
  rw [← hes', render_append assembly (pre ++ [first]) ds] at hin
  have hstart : ∀ e ∈ pre ++ [first], e.Plain :=
    fun e he => hplain e (hes' ▸ List.mem_append_left _ he)
  have hcode : ∀ e ∈ ds, e.Plain := fun e he => hplain e (hes' ▸ by simp [he])
  refine ⟨_, _, (itemsOf pre).map Item.line, (itemsOf post).map Item.line, hin, ?_, ?_, ?_⟩
  · rw [asmLines_render hstart, itemsOf_append, itemsOf_cons, hx]
    simp
  · rw [asmLines_render hplain, asmLines_render hcode, hes]
    simp [hx, hy]
  · rw [callsIn_render hcode]
    exact h.calls henv

/-! ## labels of procedures -/

/-- the label of the procedure that an event opens -/
def Event.open? : Event → Option String
  | .procOpen l => some l
  | _ => none

def opensOf (es : List Event) : List String := es.filterMap Event.open?

@[simp] theorem opensOf_nil : opensOf [] = [] := rfl

@[simp] theorem opensOf_append (es ds : List Event) :
    opensOf (es ++ ds) = opensOf es ++ opensOf ds :=
  List.filterMap_append

@[simp] theorem opensOf_cons (e : Event) (es : List Event) :
    opensOf (e :: es) = e.open?.toList ++ opensOf es := by
  rw [opensOf, List.filterMap_cons]
  cases e.open? <;> rfl

theorem opensOf_inner (h : ∀ ev ∈ es, ev.Inner) : opensOf es = [] := by
  refine List.filterMap_eq_nil_iff.2 fun e he => ?_
  have hinner := h e he
  cases e with
  | procOpen l => exact hinner.elim
  | _ => rfl

theorem opensOf_cells (T : Target) (n : Nat) (xs : List String) :
    opensOf (cellEvents T n xs) = [] := by
  induction xs generalizing n with
  | nil => rfl
  | cons x xs ih => exact ih (n + 1)

theorem opensOf_procedure {cs : List Event} (h : ∀ ev ∈ cs, ev.Inner) (n : Nat) (q label : String)
    (ys : List String) (ds : List Event) :
    opensOf (.procHead q :: (cellEvents assembly n ys ++ .procOpen label ::
      (cs ++ .procClose label :: ds))) = label :: opensOf ds := by
  simp [opensOf_cells, opensOf_inner h, Event.open?]

theorem opensOf_program {es : List Event} (h : ∀ ev ∈ es, ev.Inner) (n : Nat) (ys : List String)
    (cs : List Event) : opensOf (.start :: (cellEvents assembly n ys ++ (cs ++ .mainOpen ::
      (es ++ [.mainClose])))) = opensOf cs := by
  simp [opensOf_cells, opensOf_inner h, Event.open?]

theorem opensOf_sublist (es : List Event) : (opensOf es).Sublist (placedBy es) := by
  induction es with
  | nil => exact .slnil
  | cons e es ih =>
    rw [opensOf_cons, placedBy_cons]
    refine List.Sublist.append ?_ ih
    cases e with
    | procOpen l => exact List.Sublist.refl _
    | _ => exact List.nil_sublist _

theorem ProcsCode.length_opensOf {f f' : Frame} {procs : List (String × Block)}
    (h : ProcsCode assembly fs n f procs m f' es) : (opensOf es).length = procs.length := by
  induction h with
  | nil => rfl
  | cons _ _ hs _ ih => rw [opensOf_procedure hs.inner, List.length_cons, List.length_cons, ih]

/-- procedures without procedures of their own are compiled -/
theorem ProcsCode.compiled {f f' : Frame} {procs : List (String × Block)} {locals : List String}
    (h : ProcsCode assembly [] n f procs m f' ds) (hflat : ∀ q ∈ procs, q.2.procs = [])
    (hplain : ∀ e ∈ es, e.Plain) (hf : BlockFrame f locals env) {pre post : List Event}
    (hes : es = pre ++ (ds ++ post)) :
    ∃ env', ProcsCompiled (render assembly es) locals env procs env' (opensOf ds) ∧
      BlockFrame f' locals env' := by
  induction h generalizing env pre with
  | nil => exact ⟨env, .nil, hf⟩
  | @cons n m k f f' q consts vars inner rest body cs ds g label hlabel hg hs _ ih =>
    obtain ⟨hfirst, hrest⟩ := List.forall_mem_cons.1 hflat
    obtain rfl : inner = [] := hfirst
    subst hlabel hg
    have hg := hf.declare q (procLabel assembly n q)
    have hlocal := blockFrame_declared (n + 1) consts vars
    have hcalls := (hlocal _).calls (hg.calls .nil)
    have hworded := List.forall_mem_cons.2
      ⟨(hlocal env).worded, List.forall_mem_singleton.2 hg.worded⟩
    -- the events, split at the label of the procedure and behind its return
    have hes₁ : es = (pre ++ .procHead q :: cellEvents assembly (n + 1) (vars.getD [])) ++
        .procOpen (procLabel assembly n q) ::
          (cs ++ .procClose (procLabel assembly n q) :: (ds ++ post)) := by
      simp [hes]
    have hes₂ : es = (pre ++ .procHead q :: (cellEvents assembly (n + 1) (vars.getD []) ++
        .procOpen (procLabel assembly n q) :: (cs ++ [.procClose (procLabel assembly n q)]))) ++
          (ds ++ post) := by
      simp [hes]
    obtain ⟨env', hprocs, hf'⟩ := ih hrest hg hes₂
    refine ⟨env', ?_, hf'⟩
    rw [opensOf_procedure hs.inner]
    exact .cons rfl (.mk rfl .nil (hs.standsBetween hworded hcalls hplain hes₁ rfl rfl)) hprocs

/-- the code of a program without procedures inside procedures holds all of them -/
theorem ProgramCode.compiled {p : Program} {f : Frame} (h : ProgramCode assembly p m f es)
    (hp : p.Shaped) (hflat : ∀ q ∈ p.block.procs, q.2.procs = []) :
    ProceduresCompiled (render assembly es) p := by
  have hplain := h.plain hp
  have hnodup := h.nodup.sublist (opensOf_sublist es)
  generalize hes : es = total at hplain hnodup ⊢
  cases h with
  | @mk k m f consts vars procs body cs ds hprocs hs =>
    have hsplit : total = (.start :: cellEvents assembly 0 (vars.getD [])) ++
        (cs ++ .mainOpen :: (ds ++ [.mainClose])) := hes.symm
    have hsplit' : total = ((.start :: cellEvents assembly 0 (vars.getD [])) ++ cs) ++
        .mainOpen :: (ds ++ .mainClose :: []) := by
      simp [hsplit]
    obtain ⟨env, hcompiled, hframe⟩ :=
      hprocs.compiled hflat hplain (blockFrame_declared 0 consts vars fun _ => none) hsplit
    rw [← hes, opensOf_program hs.inner] at hnodup
    exact ⟨opensOf cs, hnodup,
      .mk rfl hcompiled (hs.standsBetween (List.forall_mem_singleton.2 hframe.worded)
        (hframe.calls .nil) hplain hsplit' rfl rfl)⟩

/-! ## texts with all procedures -/

theorem head?_of_procLabel {q hint : String} {n k : Nat}
    (h : procLabel assembly n q = serialLabel hint k) : hint.toList.head? = some 'p' := by
  obtain ⟨rfl, -⟩ := serialLabel_inj h
  simp [assembly]

theorem Event.Inner.not_proc {e : Event} (h : e.Inner) (n : Nat) (q : String) :
    procLabel assembly n q ∉ e.placed := by
  intro hmem
  cases e with
  | join l | loopOpen l _ | loopClose _ l =>
    obtain ⟨k, rfl⟩ := h
    exact absurd (head?_of_procLabel (List.mem_singleton.1 hmem)) (by decide)
  | cell _ | procOpen _ | mainOpen => exact h.elim
  | _ => cases hmem

theorem proc_not_placed (h : ∀ ev ∈ es, ev.Inner) (n : Nat) (q : String) :
    procLabel assembly n q ∉ placedBy es := by
  intro hmem
  obtain ⟨e, he, hmem⟩ := List.mem_flatMap.1 hmem
  exact (h e he).not_proc n q hmem

theorem proc_not_cell (n : Nat) (q : String) (k : Nat) (xs : List String) :
    procLabel assembly n q ∉ placedBy (cellEvents assembly k xs) := by
  induction xs generalizing k with
  | nil => exact nofun
  | cons x xs ih =>
    rw [cellEvents, placedBy_cons, List.mem_append]
    rintro (hx | hrest)
    · have hhead := head?_of_procLabel (List.mem_singleton.1 hx)
      simp [assembly] at hhead
    · exact ih (k + 1) hrest

theorem ProcsCode.mem_opensOf {f f' : Frame} {procs : List (String × Block)}
    (h : ProcsCode assembly fs n f procs m f' es) {k : Nat} {q : String}
    (hmem : procLabel assembly k q ∈ placedBy es) : procLabel assembly k q ∈ opensOf es := by
  induction h with
  | nil => exact hmem
  | @cons n m _ f f' p consts vars inner rest body cs ds g label _ _ hs _ ih =>
    rw [opensOf_procedure hs.inner, List.mem_cons]
    simp only [placedBy_cons, placedBy_append, Event.placed, List.nil_append, List.cons_append,
      List.mem_append, List.mem_cons, proc_not_cell, proc_not_placed hs.inner, false_or] at hmem
    exact hmem.imp_right ih

/-- the labels of procedures in the code of a program -/
theorem ProgramCode.mem_opensOf {p : Program} {f : Frame} (h : ProgramCode assembly p m f es)
    {k : Nat} {q : String} (hmem : procLabel assembly k q ∈ placedBy es) :
    procLabel assembly k q ∈ opensOf es := by
  cases h with
  | mk hprocs hs =>
    have hmain : procLabel assembly k q ≠ "main" := serialLabel_ne_main _ _
    rw [opensOf_program hs.inner]
    simp only [placedBy_cons, placedBy_append, placedBy_nil, Event.placed, List.nil_append,
      List.cons_append, List.append_nil, List.mem_append, List.mem_cons, proc_not_cell,
      proc_not_placed hs.inner, hmain, or_false, false_or] at hmem
    exact hprocs.mem_opensOf hmem

theorem ProgramCode.length_opensOf {p : Program} {f : Frame} (h : ProgramCode assembly p m f es) :
    (opensOf es).length = p.block.procs.length := by
  cases h with
  | mk hprocs hs =>
    rw [opensOf_program hs.inner]
    exact hprocs.length_opensOf

end Generator

/-- the label of a procedure stands in a text -/
def ProcedureIn (text l : String) : Prop :=
  (∃ n q, l = procLabel assembly n q) ∧ .label l.toList ∈ asmLines text.toList

section Labels

variable {text : String}

theorem BlockCompiled.first_mem {env : Labels} {first last : AsmLine} {b : Block} {ls : List String}
    (h : BlockCompiled text env first last b ls) : first ∈ asmLines text.toList := by
  obtain ⟨-, -, _, _, _, _, -, -, hlines, -⟩ := h
  rw [hlines]
  exact List.mem_append_right _ List.mem_cons_self

mutual

theorem BlockCompiled.labels :
    ∀ {env : Labels} {first last : AsmLine} {b : Block} {ls : List String},
    BlockCompiled text env first last b ls →
      (∀ l ∈ ls, ProcedureIn text l) ∧ b.procs.length ≤ ls.length ∧
        (ls.length = b.procs.length → ∀ q ∈ b.procs, q.2.procs = [])
  | _, _, _, _, _, .mk _ hprocs _ => hprocs.labels

theorem ProcsCompiled.labels : ∀ {locals : List String} {env env' : Labels}
    {procs : List (String × Block)} {ls : List String},
    ProcsCompiled text locals env procs env' ls →
      (∀ l ∈ ls, ProcedureIn text l) ∧ procs.length ≤ ls.length ∧
        (ls.length = procs.length → ∀ q ∈ procs, q.2.procs = [])
  | _, _, _, _, _, .nil => ⟨nofun, Nat.le_refl 0, fun _ => nofun⟩
  | _, _, _, _, _, @ProcsCompiled.cons _ _ inner ls _ _ q l n b rest hl hb hrest => by
    obtain ⟨hin, hlen, -⟩ := hb.labels
    obtain ⟨hin', hlen', hflat⟩ := hrest.labels
    refine ⟨List.forall_mem_cons.2
      ⟨⟨⟨n, q, hl⟩, hb.first_mem⟩, List.forall_mem_append.2 ⟨hin, hin'⟩⟩,
      ?_, fun heq => ?_⟩
    · simp only [List.length_cons, List.length_append]
      omega
    · simp only [List.length_cons, List.length_append] at heq
      refine List.forall_mem_cons.2 ⟨?_, hflat (by omega)⟩
      exact List.eq_nil_of_length_eq_zero (show b.procs.length = 0 by omega)

end

end Labels

/-- the code of a program opens no more procedures than its block has -/
theorem Generator.ProgramCode.flat {p : Program} {m : Nat} {f : Frame} {es : List Event}
    (h : ProgramCode assembly p m f es) (hp : p.Shaped)
    (hall : ProceduresCompiled (render assembly es) p) : ∀ q ∈ p.block.procs, q.2.procs = [] := by
  obtain ⟨ls, hnodup, hblock⟩ := hall
  obtain ⟨hlabels, hmany, hflat⟩ := hblock.labels
  have hsub : ls ⊆ opensOf es := by
    intro l hl
    obtain ⟨⟨n, q, rfl⟩, hmem⟩ := hlabels l hl
    rw [asmLines_program h hp] at hmem
    obtain ⟨x, hx, hline⟩ := List.mem_map.1 hmem
    refine h.mem_opensOf ?_
    rw [← labelsOf_itemsOf, mem_labelsOf]
    cases x with
    | label l =>
      rw [← String.toList_inj.1 (AsmLine.label.inj hline)]
      exact hx
    | note | zero | op _ | opWord _ _ => cases hline
  have hfew : ls.length ≤ p.block.procs.length :=
    h.length_opensOf ▸ (List.subperm_of_subset hnodup hsub).length_le
  exact hflat (Nat.le_antisymm hfew hmany)

/-- **A scoped program gets a text with all its procedures exactly if none of them has procedures of
its own.**
-/
theorem procedures_compiled_iff {source : String} {p : Program}
    (hparse : (parseText source).1 = .ok p) (hscoped : p.Scoped) :
    (∃ f r text g, translate assembly p.toValue {} = (.ok (f, r), text, g) ∧
      ProceduresCompiled text p) ↔ ∀ q ∈ p.block.procs, q.2.procs = [] := by
  have hp := shaped_of_parse hparse
  constructor
  · rintro ⟨f, r, text, g, hrun, hall⟩
    obtain ⟨es, hcode, rfl⟩ := program_emits hrun
    exact hcode.flat hp hall
  · intro hflat
    obtain ⟨m, f, es, hcode⟩ := exists_programCode hscoped hflat
    exact ⟨f, .none, render assembly es, { labels := m }, hcode.translates, hcode.compiled hp hflat⟩

/-- a procedure with a variable of its own, and one that calls it, and itself while `x < 1` -/
def callingBoth : Program :=
  ⟨.mk none (some ["x"])
    [("p", .mk none (some ["x"]) [] (.assign "x" (justNumber 1))),
      ("q", .mk none none [] (.block [.call "p",
        .ifThen (.compare (justName "x") .lt (justNumber 1)) (.call "q")]))]
    (.call "q")⟩

def callingBothText : String :=
  "var x; procedure p; var x; x := 1; procedure q; begin call p; if x < 1 then call q end; call q."

set_option maxRecDepth 2000 in
theorem callingBoth_parsed : (parseText callingBothText).1 = .ok callingBoth := by
  with_unfolding_all rfl

/-- two procedures side by side are both compiled -/
theorem callingBoth_compiled :
    (parseText callingBothText).1 = .ok callingBoth ∧ callingBoth.Scoped ∧
    ∃ f r text g, translate assembly callingBoth.toValue {} = (.ok (f, r), text, g) ∧
      ProceduresCompiled text callingBoth := by
  have hscoped : callingBoth.Scoped := by
    simp [callingBoth, justName, justNumber, Program.Scoped, Block.Scoped, Block.scopedFrom,
      Statement.Fits, Statement.Fits.all, ValuesIn, kindOf, Names.kind?, Names.ofBlock,
      Names.declare, Condition.symbols, Expr.symbols, Expr.tailSymbols, Term.symbols,
      Term.tailSymbols, Factor.symbols]
  have hflat : ∀ q ∈ callingBoth.block.procs, q.2.procs = [] := by
    simp [callingBoth, Block.procs]
  exact ⟨callingBoth_parsed, hscoped, (procedures_compiled_iff callingBoth_parsed hscoped).2 hflat⟩

/-- `PROCEDURE p; PROCEDURE q; ! 1; CALL q; CALL p` -/
def callInner : Program :=
  ⟨.mk none none
    [("p", .mk none none [("q", .mk none none [] (.print (justNumber 1)))] (.call "q"))]
    (.call "p")⟩

/-- the same with another `q` outside, which prints 2 -/
def callShadowed : Program :=
  ⟨.mk none none
    [("q", .mk none none [] (.print (justNumber 2))),
      ("p", .mk none none [("q", .mk none none [] (.print (justNumber 1)))] (.call "q"))]
      (.call "p")⟩

/-- **An inner procedure is lost**: its name is unknown in the procedure around it, or stands for a
procedure further out, which is then called. -/
theorem inner_procedure_lost :
    (parseText "procedure p; procedure q; ! 1; call q; call p.").1 = .ok callInner ∧
    callInner.Scoped ∧
    (translate assembly callInner.toValue {}).1 = .error (.undefinedName (.str "q")) ∧
    (parseText "procedure q; ! 2; procedure p; procedure q; ! 1; call q; call p.").1 =
      .ok callShadowed ∧
    callShadowed.Scoped ∧
    (translate assembly callShadowed.toValue {}).2.1 =
      "JMP main\n# Procedure q\nt_proc_q_1:\n\tPUSH 2\n\tPRINT\n\tPOP\n\tRET\n# Procedure p\n" ++
        "t_proc_p_2:\n\tCALL t_proc_q_1\n\tRET\nmain:\n\tCALL t_proc_p_2\n\tHALT\n" := by
  have hscoped : callInner.Scoped ∧ callShadowed.Scoped := by
    simp [callInner, callShadowed, justNumber, Program.Scoped, Block.Scoped, Block.scopedFrom,
      Statement.Fits, ValuesIn, kindOf, Names.kind?, Names.ofBlock, Names.declare, Expr.symbols,
      Expr.tailSymbols, Term.symbols, Term.tailSymbols, Factor.symbols]
  refine ⟨?_, hscoped.1, ?_, ?_, hscoped.2, ?_⟩ <;> with_unfolding_all rfl

end Pl0Kit
