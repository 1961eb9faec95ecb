import Pl0Kit.Proofs.Emission
import Pl0Kit.Proofs.NameResolution

/-!
# Compiled expressions

For every expression of a program without divisions, the code that is generated for it pushes its
computed value on any stack, and the evaluator answers its denoted value, both in the same
assignment of integers to the declared variables (`compiled_expression_computes`).  The two values
agree where nothing is subtracted; a difference comes out with its sign changed
(`difference_reversed`).
-/

namespace Pl0Kit

open Machine Generator

/-! ## expressions of a program -/

mutual

/-- an expression and those in parentheses inside it -/
def Expr.nodes : Expr → List Expr
  | .mk sign first rest => .mk sign first rest :: (first.nodes ++ Expr.tailNodes rest)

def Expr.tailNodes : List (AddOp × Term) → List Expr
  | [] => []
  | (_, x) :: rest => x.nodes ++ Expr.tailNodes rest

def Term.nodes : Term → List Expr
  | .mk first rest => first.nodes ++ Term.tailNodes rest

def Term.tailNodes : List (MulOp × Factor) → List Expr
  | [] => []
  | (_, x) :: rest => x.nodes ++ Term.tailNodes rest

def Factor.nodes : Factor → List Expr
  | .name _ => []
  | .number _ => []
  | .paren e => e.nodes

end

def Condition.expressions : Condition → List Expr
  | .odd e => e.nodes
  | .compare l _ r => l.nodes ++ r.nodes

/-- the expressions of a statement, also those inside others -/
def Statement.expressions : Statement → List Expr
  | .assign _ e => e.nodes
  | .call _ => []
  | .block ss => allExpressions ss
  | .ifThen c s => c.expressions ++ s.expressions
  | .whileDo c s => c.expressions ++ s.expressions
  | .print e => e.nodes
where
  allExpressions : List Statement → List Expr
    | [] => []
    | s :: ss => s.expressions ++ allExpressions ss

/-! ## values of names -/

def Meaning.value (σ : Nat → Int) : Meaning → Int
  | .const n => n
  | .var d => σ d

/-- the value of a name inside some blocks, where `σ` assigns integers to the declared variables -/
def valueOf (σ : Nat → Int) (scope : List (Block × Nat)) (x : String) : Int :=
  ((meaningOf x scope).map (Meaning.value σ)).getD 0

/-- the names of some blocks have their values in the frames `gs` -/
def Knows (gs : Frames) (scope : List (Block × Nat)) (σ : Nat → Int) : Prop :=
  ∀ x, (meaningOf x scope).isSome → ∃ kind n, gs.find? (.str x) =
    some (kind, .int (valueOf σ scope x), n)

namespace Machine

/-- a memory with the code of a text, whose cells hold the values of the declared variables -/
structure HoldsValues (text : String) (σ : Nat → Int) (mem : List Value) : Prop where
  length : mem.length = (assemble text).length
  keeps : ∀ n, n ∉ cellsIn text → mem[n]? = (assemble text)[n]?
  values : ∀ d n : Nat, (cellsIn text)[d]? = some n → mem[n]? = some (.int (σ d))

end Machine

namespace Generator

/-- the text `start` goes up to the code of an expression, and `stop` up to its end -/
def CodeIn (text : String) (e : Expr) (start stop : String) : Prop :=
  ∃ g g' v, Act.exec ((rules assembly).run e.toValue) g = (.ok v, g') ∧
    start = render assembly g.events ∧ stop = render assembly g'.events ∧
    ∃ rest, text = stop ++ rest

/-- what the machine and the evaluator make of an expression inside some blocks -/
structure Computes (text : String) (scope : List (Block × Nat)) (e : Expr) (start stop : String) :
    Prop where
  code : CodeIn text e start stop
  machine : ∀ {σ : Nat → Int} {mem : List Value}, HoldsValues text σ mem → ∀ st out,
    Leads ⟨mem, st, .int (assemble start).length, out⟩
      ⟨mem, .int (e.computed (valueOf σ scope)) :: st, .int (assemble stop).length, out⟩
  evaluator : ∀ {σ : Nat → Int} {gs : Frames}, Knows gs scope σ →
    Evaluator.Settles gs e.toValue (.int (e.denote (valueOf σ scope)))
  /-- the values are the same where nothing is subtracted -/
  agrees : e.Within .noMinus → ∀ σ, e.computed (valueOf σ scope) = e.denote (valueOf σ scope)

/-! ## code of expressions -/

section Nodes

variable {fs : Frames} {e : Expr} {es cs ds : List Event}

/-- some of the given events are those of the expression `e` -/
def Contains (fs : Frames) (es : List Event) (e : Expr) : Prop :=
  ∃ cs, ExprCode fs e cs ∧ cs <:+: es

theorem Contains.mono (h : Contains fs es e) (hes : es <:+: ds) : Contains fs ds e := by
  obtain ⟨cs, hcs, hpart⟩ := h
  exact ⟨cs, hcs, hpart.trans hes⟩

theorem Contains.left (h : Contains fs es e) (ds : List Event) : Contains fs (es ++ ds) e :=
  h.mono (List.prefix_append es ds).isInfix

theorem Contains.right (h : Contains fs es e) (ds : List Event) : Contains fs (ds ++ es) e :=
  h.mono (List.suffix_append ds es).isInfix

mutual

theorem ExprCode.nodes : ∀ {d : Expr} {es : List Event}, ExprCode fs d es →
    ∀ e ∈ d.nodes, Contains fs es e
  | .mk _ _ _, _, .mk ht hr => by
    refine List.forall_mem_cons.2
      ⟨⟨_, .mk ht hr, List.infix_rfl⟩, List.forall_mem_append.2 ⟨?_, ?_⟩⟩
    · exact fun e he => (ht.nodes e he).left _
    · exact fun e he => ((hr.nodes e he).left _).right _

theorem TermsCode.nodes : ∀ {xs : List (AddOp × Term)} {es : List Event}, TermsCode fs xs es →
    ∀ e ∈ Expr.tailNodes xs, Contains fs es e
  | _, _, .nil => nofun
  | _, _, .cons hx hr => by
    refine List.forall_mem_append.2 ⟨fun e he => (hx.nodes e he).left _, fun e he => ?_⟩
    exact ((hr.nodes e he).right [_]).right _

theorem TermCode.nodes : ∀ {x : Term} {es : List Event}, TermCode fs x es →
    ∀ e ∈ x.nodes, Contains fs es e
  | _, _, .mk hf hr => List.forall_mem_append.2
    ⟨fun e he => (hf.nodes e he).left _, fun e he => (hr.nodes e he).right _⟩

theorem FactorsCode.nodes : ∀ {xs : List (MulOp × Factor)} {es : List Event}, FactorsCode fs xs es →
    ∀ e ∈ Term.tailNodes xs, Contains fs es e
  | _, _, .nil => nofun
  | _, _, .cons hx hr => List.forall_mem_append.2
    ⟨fun e he => (hx.nodes e he).left _, fun e he => ((hr.nodes e he).right _).right _⟩

theorem FactorCode.nodes : ∀ {x : Factor} {es : List Event}, FactorCode fs x es →
    ∀ e ∈ x.nodes, Contains fs es e
  | .name _, _, _ => nofun
  | .number _, _, _ => nofun
  | .paren _, _, .paren h => h.nodes

end

theorem ConditionCode.expressions {c : Condition} (h : ConditionCode assembly fs c es) :
    ∀ e ∈ c.expressions, Contains fs es e := by
  cases h with
  | odd he => exact fun e hmem => (he.nodes e hmem).left _
  | compare hl hr _ =>
    exact List.forall_mem_append.2
      ⟨fun e he => (hl.nodes e he).left _, fun e he => ((hr.nodes e he).left _).right _⟩

mutual

theorem StatementCode.expressions : ∀ {n m : Nat} {s : Statement} {es : List Event},
    StatementCode assembly fs n s m es → ∀ e ∈ s.expressions, Contains fs es e
  | _, _, _, _, .assign he _ => fun e hmem => (he.nodes e hmem).left _
  | _, _, _, _, .call _ => nofun
  | _, _, _, _, .block hs => hs.expressions
  | _, _, _, _, .ifThen hc hs => List.forall_mem_append.2
    ⟨fun e he => (hc.expressions e he).left _,
      fun e he => (((hs.expressions e he).left _).right [_]).right _⟩
  | _, _, _, _, .whileDo _ _ hc hs => List.forall_mem_append.2
    ⟨fun e he => (((hc.expressions e he).left _).left _).right [_],
      fun e he => ((((hs.expressions e he).right [_]).right _).left _).right [_]⟩
  | _, _, _, _, .print he => fun e hmem => (he.nodes e hmem).left _

theorem StatementsCode.expressions : ∀ {n m : Nat} {ss : List Statement} {es : List Event},
    StatementsCode assembly fs n ss m es →
      ∀ e ∈ Statement.expressions.allExpressions ss, Contains fs es e
  | _, _, _, _, .nil => nofun
  | _, _, _, _, .cons hs hr => List.forall_mem_append.2
    ⟨fun e he => (hs.expressions e he).left _, fun e he => (hr.expressions e he).right _⟩

end

end Nodes

/-! ## names in memory and in frames -/

section Names

variable {p : Program} {m : Nat} {f : Frame} {es : List Event} {text : String} {σ : Nat → Int}
  {mem : List Value} {fs gs : Frames} {scope : List (Block × Nat)}

/-- storage is the cells of variables -/
theorem mem_cellsIn_of_dataAt {xs : List Item} (h : asmLines text.toList = xs.map Item.line)
    {n : Nat} (hn : DataAt xs n) : n ∈ cellsIn text := by
  obtain ⟨pre, l, c, hline⟩ := storageAt h hn
  refine List.mem_filterMap.2 ⟨(n, .words [['0']]), ?_, if_pos rfl⟩
  rw [hline]
  exact List.mem_append_right _ (List.mem_cons_of_mem _ List.mem_cons_self)

theorem ProgramCode.loaded (h : ProgramCode assembly p m f es) (hp : p.Shaped)
    (hlines : asmLines text.toList = (itemsOf es).map Item.line) (hmem : HoldsValues text σ mem) :
    Loaded (itemsOf es) mem := by
  have hcells := cellsIn_places hlines (h.resolved hp)
  have hcode : assemble text = Machine.code (itemsOf es) := assemble_eq hlines
  refine ⟨?_, fun n hn => ?_, fun n hn => ?_⟩
  · rw [hmem.length, hcode, length_code]
  · rw [← hcode]
    refine hmem.keeps n fun hcell => hn ?_
    obtain ⟨d, hd⟩ := List.mem_iff_getElem?.1 hcell
    obtain ⟨l, -, hplaced⟩ := forall₂_getElem? hcells.flip hd
    exact hplaced.1
  · obtain ⟨d, hd⟩ := List.mem_iff_getElem?.1 (mem_cellsIn_of_dataAt hlines hn)
    exact ⟨σ d, hmem.values d n hd⟩

/-- names have the values of their declarations in memory -/
theorem ProgramCode.readable (h : ProgramCode assembly p m f es) (hp : p.Shaped)
    (hlines : asmLines text.toList = (itemsOf es).map Item.line) (hmem : HoldsValues text σ mem)
    (hfs : List.Forall₂ (Labelled (cellsOf es)) fs scope) :
    Readable (itemsOf es) mem fs (valueOf σ scope) := by
  refine ⟨h.getLast?_items, h.loaded hp hlines hmem, fun {x v n} hx => ?_, fun {x v n} hx => ?_⟩
  · obtain ⟨c, hc, hv⟩ := find_means hfs hx
    exact ⟨c, hv, by rw [valueOf, hc]; rfl⟩
  · obtain ⟨d, hd, l, hl, hv⟩ := find_means hfs hx
    obtain ⟨a, ha, -, -, hoperand⟩ := forall₂_getElem? (cellsIn_places hlines (h.resolved hp)) hl
    refine ⟨l, a, hv, hoperand, ?_⟩
    rw [hmem.values d a ha, valueOf, hd]
    rfl

theorem reads_of_knows {ls : List String} (h : Knows gs scope σ)
    (hfs : List.Forall₂ (Labelled ls) fs scope) : Evaluator.Reads fs gs (valueOf σ scope) := by
  intro x kind v n hx hkind
  refine h x ?_
  cases kind with
  | const =>
    obtain ⟨c, hc, -⟩ := find_means hfs hx
    rw [hc]
    rfl
  | var =>
    obtain ⟨d, hd, -⟩ := find_means hfs hx
    rw [hd]
    rfl
  | proc => exact absurd rfl hkind

end Names

theorem render_append (T : Target) (es ds : List Event) :
    render T (es ++ ds) = render T es ++ render T ds := by
  simp [render]

theorem length_assemble_render {es : List Event} (h : ∀ e ∈ es, e.Plain) :
    (assemble (render assembly es)).length = size (itemsOf es) := by
  rw [assemble_eq (asmLines_render h), length_code]

/-- the text `start` goes up to the code of a statement, and `stop` up to its end -/
def StatementIn (text : String) (s : Statement) (start stop : String) : Prop :=
  ∃ g g' v, Act.exec ((rules assembly).run s.toValue) g = (.ok v, g') ∧
    start = render assembly g.events ∧ stop = render assembly g'.events ∧
    ∃ rest, text = stop ++ rest

theorem StatementCode.statementIn {fs : Frames} {n m : Nat} {s : Statement} {es : List Event}
    (h : StatementCode assembly fs n s m es) (hfs : ∀ f ∈ fs, Worded f) (pre post : List Event) :
    StatementIn (render assembly (pre ++ (es ++ post))) s (render assembly pre)
      (render assembly (pre ++ es)) := by
  obtain ⟨v, hv⟩ := h.emits (g := ⟨fs, n, pre⟩) hfs rfl rfl
  refine ⟨_, _, v, hv, rfl, rfl, render assembly post, ?_⟩
  rw [← render_append, ← List.append_assoc]

/-- the code of the first events of a program ends where that of the others starts -/
theorem ProgramCode.length_assemble {p : Program} {m : Nat} {f : Frame} {es pre post : List Event}
    (h : ProgramCode assembly p m f es) (hp : p.Shaped) (hes : es = pre ++ post) :
    ((assemble (render assembly pre)).length : Int) = address (itemsOf es) (itemsOf post) := by
  have hxs : itemsOf es = itemsOf pre ++ itemsOf post := by rw [hes, itemsOf_append]
  have hplain : ∀ d ∈ pre, d.Plain := fun d hd => h.plain hp d (hes ▸ List.mem_append_left post hd)
  rw [length_assemble_render hplain, address_eq hxs]

/-- the events `ds` are those of the expression `e` where the names of some blocks have the cells
that `es` makes for them, and stand in `es` between the texts `start` and `stop` -/
structure Located (es : List Event) (scope : List (Block × Nat)) (e : Expr) (fs : Frames)
    (ds : List Event) (c : List Item) (start stop : String) : Prop where
  code : ExprCode fs e ds
  scope : List.Forall₂ (Labelled (cellsOf es)) fs scope
  text : CodeIn (render assembly es) e start stop
  rest : itemsOf ds ++ c <:+ itemsOf es
  start : ((assemble start).length : Int) = address (itemsOf es) (itemsOf ds ++ c)
  stop : ((assemble stop).length : Int) = address (itemsOf es) c

theorem ProgramCode.located {p : Program} {m : Nat} {f : Frame} {es : List Event}
    (h : ProgramCode assembly p m f es) (hp : p.Shaped) {q : Part} (hq : q ∈ p.parts) {e : Expr}
    (he : e ∈ q.body.expressions) :
    ∃ fs ds c start stop, Located es q.scope e fs ds c start stop := by
  obtain ⟨css, hparts, -, hheld⟩ := h.parts
  obtain ⟨i, hi⟩ := List.mem_iff_getElem?.1 hq
  obtain ⟨cs, hcs, fs, n, k, hfs, hs⟩ := forall₂_getElem? hparts hi
  obtain ⟨ds, hds, hpart⟩ := hs.expressions e he
  obtain ⟨pre, post, hes⟩ := hpart.trans (hheld cs (List.mem_of_getElem? hcs))
  have hes' : es = pre ++ (ds ++ post) := by rw [← hes, List.append_assoc]
  obtain ⟨v, hv⟩ := hds.emits (T := assembly) (g := ⟨fs, n, pre⟩) (worded_of_labelled hfs) rfl
  refine ⟨fs, ds, itemsOf post, render assembly pre, render assembly (pre ++ ds), hds, hfs,
    ⟨_, _, v, hv, rfl, rfl, render assembly post, ?_⟩, ⟨itemsOf pre, ?_⟩, ?_, ?_⟩
  · rw [← render_append, hes]
  · rw [hes', itemsOf_append, itemsOf_append]
  · rw [h.length_assemble hp hes', itemsOf_append]
  · exact h.length_assemble hp hes.symm

theorem ProgramCode.computes {p : Program} {m : Nat} {f : Frame} {es : List Event}
    (h : ProgramCode assembly p m f es) (hp : p.Shaped) {q : Part} (hq : q ∈ p.parts) {e : Expr}
    (he : e ∈ q.body.expressions) (hdiv : e.Within .noDivision) :
    ∃ start stop, Computes (render assembly es) q.scope e start stop := by
  obtain ⟨fs, ds, c, start, stop, hds⟩ := h.located hp hq he
  have hlines := asmLines_program h hp
  refine ⟨start, stop, hds.text, fun {σ mem} hmem st out => ?_, fun {σ gs} hgs => ?_,
    fun hminus σ => ?_⟩
  · rw [hds.start, hds.stop]
    exact hds.code.computes (F := .noDivision) (h.readable hp hlines hmem hds.scope)
      (fun _ => id) hdiv hds.rest
  · exact Evaluator.settles_expr hds.code (reads_of_knows hgs hds.scope)
  · exact Expr.computed_eq_denote (F := .noMinus) _ (fun _ => id) hminus

end Generator

/-- **Compiled expressions compute.**  For every expression without division in a parsed program,
its code pushes the computed value on any stack, the evaluator answers the denoted value, and the
two are the same where nothing is subtracted. -/
theorem compiled_expression_computes {source text : String} {p : Program} {f : Frame} {r : Value}
    {g : Gen} (hparse : (parseText source).1 = .ok p)
    (hcompile : translate assembly p.toValue {} = (.ok (f, r), text, g)) {q : Part}
    (hq : q ∈ p.parts) {e : Expr} (he : e ∈ q.body.expressions) (hdiv : e.Within .noDivision) :
    ∃ start stop, Computes text q.scope e start stop := by
  obtain ⟨es, hcode, rfl⟩ := program_emits hcompile
  exact hcode.computes (shaped_of_parse hparse) hq he hdiv

/-- `y - k * (x + 1)` -/
def scaled : Expr :=
  .mk none (.mk (.name "y") []) [(.minus, .mk (.name "k")
    [(.times, .paren (.mk none (.mk (.name "x") []) [(.plus, .mk (.number 1) [])]))])]

/-- the procedure `p`, which prints this expression -/
def printScaled : Block := .mk none (some ["y"]) [] (.print scaled)

def callScaled : Program := ⟨.mk (some [("k", 2)]) (some ["x"]) [("p", printScaled)] (.call "p")⟩

theorem callScaled_parses : (parseText
    "const k = 2; var x; procedure p; var y; ! y - k * (x + 1); call p.").1 = .ok callScaled := by
  with_unfolding_all rfl

def callScaledText : String :=
  "JMP main\nt_var_x_1:\n    0\n# Procedure p\nt_var_y_3:\n    0\nt_proc_p_2:\n" ++
    "\tLOAD t_var_y_3\n\tPUSH 2\n\tLOAD t_var_x_1\n\tPUSH 1\n\tADD\n\tMUL\n\tSUB\n" ++
    "\tPRINT\n\tPOP\n\tRET\nmain:\n\tCALL t_proc_p_2\n\tHALT\n"

def callScaledFrame : Frame where
  consts := [(.str "k", .int 2)]
  vars := [(.str "x", .str "t_var_x_1")]
  procs := [(.str "p", .str "t_proc_p_2")]

set_option maxRecDepth 2000 in
theorem callScaled_compiles : translate assembly callScaled.toValue {} =
    (.ok (callScaledFrame, .none), callScaledText, { labels := 3 }) := by
  with_unfolding_all rfl

/-- inside the procedure, its own `y` is the second variable and `x` the first -/
theorem scaled_computes :
    ∃ start stop, Computes callScaledText [(printScaled, 1), (callScaled.block, 0)]
      scaled start stop := by
  have hdiv : scaled.Within .noDivision := by
    simp [scaled, Expr.Within, Expr.tailWithin, Term.Within, Term.tailWithin, Factor.Within,
      Fragment.noDivision]
  have hpart : ⟨.print scaled, [(printScaled, 1), (callScaled.block, 0)]⟩ ∈ callScaled.parts :=
    List.mem_cons_self
  exact compiled_expression_computes callScaled_parses callScaled_compiles hpart
    List.mem_cons_self hdiv

/-- `5 - 3` -/
def fiveLessThree : Expr := .mk none (.mk (.number 5) []) [(.minus, .mk (.number 3) [])]

def differenceText : String :=
  "JMP main\nmain:\n\tPUSH 5\n\tPUSH 3\n\tSUB\n\tPRINT\n\tPOP\n\tHALT\n"

/-- **Differences are computed the other way round**: the evaluator answers 2, and the code leaves
-2. -/
theorem difference_reversed :
    (parseText "! 5 - 3 .").1 = .ok ⟨.mk none none [] (.print fiveLessThree)⟩ ∧
      translate assembly (Program.mk (.mk none none [] (.print fiveLessThree))).toValue {} =
        (.ok ({}, .none), differenceText, {}) ∧
      Evaluator.run 12 fiveLessThree.toValue {} = (.ok ({}, .int 2), {}) ∧
      State.runFor { memory := assemble differenceText, offset := .int 2 } 3 =
        ⟨.ok true, 3,
          { memory := assemble differenceText, stack := [.int (-2)], offset := .int 7 }⟩ := by
  refine ⟨?_, ?_, ?_, ?_⟩ <;> with_unfolding_all rfl

end Pl0Kit
