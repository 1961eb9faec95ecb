import Pl0Kit.Proofs.CompiledExpressions

/-!
# Tests of parity in compiled code

There is no instruction for a test of parity: the code of `ODD e` leaves the value of `e`, and the
jump over the body is taken if that is zero.  So the machine enters the body of `IF ODD e THEN s`
and of `WHILE ODD e DO s` for every value of `e` but zero, odd or even (`odd_test_enters`).

`Leaves a b s s'` says which way the machine leaves the code of a test, the places from `a` up to
`b`: `s'` is the first machine outside.  There is at most one (`Leaves.unique`).
-/

namespace Pl0Kit

open Machine Generator

/-! ## statements inside others -/

/-- a statement and those inside it -/
def Statement.nodes : Statement → List Statement
  | .assign x e => [.assign x e]
  | .call p => [.call p]
  | .block ss => .block ss :: allNodes ss
  | .ifThen c s => .ifThen c s :: s.nodes
  | .whileDo c s => .whileDo c s :: s.nodes
  | .print e => [.print e]
where
  allNodes : List Statement → List Statement
    | [] => []
    | s :: ss => s.nodes ++ allNodes ss

mutual

theorem Statement.Shaped.nodes : ∀ {s : Statement}, s.Shaped → ∀ t ∈ s.nodes, t.Shaped
  | .assign _ _, h => List.forall_mem_singleton.2 h
  | .call _, h => List.forall_mem_singleton.2 h
  | .block _, h => List.forall_mem_cons.2 ⟨h, Statement.Shaped.allNodes h.2⟩
  | .ifThen _ s, h => List.forall_mem_cons.2 ⟨h, Statement.Shaped.nodes (s := s) h⟩
  | .whileDo _ s, h => List.forall_mem_cons.2 ⟨h, Statement.Shaped.nodes (s := s) h⟩
  | .print _, h => List.forall_mem_singleton.2 h

theorem Statement.Shaped.allNodes : ∀ {ss : List Statement}, Statement.Shaped.shapedAll ss →
    ∀ t ∈ Statement.nodes.allNodes ss, t.Shaped
  | [], _ => nofun
  | _ :: _, h => List.forall_mem_append.2 ⟨h.1.nodes, Statement.Shaped.allNodes h.2⟩

end

theorem shaped_procParts (outer : Block) {procs : List (String × Block)} :
    Block.shapedProcs procs → ∀ n, ∀ q ∈ procParts outer n procs, q.body.Shaped := by
  induction procs with
  | nil => exact fun _ _ => nofun
  | cons d rest ih =>
    obtain ⟨p, b⟩ := d
    intro h n
    refine List.forall_mem_cons.2 ⟨?_, ih h.2 _⟩
    cases b with
    | mk _ _ _ _ => exact h.1.2.2

theorem Program.Shaped.parts {p : Program} (h : p.Shaped) : ∀ q ∈ p.parts, q.body.Shaped := by
  obtain ⟨b⟩ := p
  cases b with
  | mk consts vars procs body =>
    obtain ⟨-, hprocs, hbody⟩ := h.block
    exact List.forall_mem_append.2
      ⟨shaped_procParts _ hprocs _, List.forall_mem_singleton.2 hbody⟩

/-! ## the way out of some places -/

namespace Machine

/-- steps at the places from `a` up to `b`, until the machine `s'` is at another place -/
inductive Leaves (a b : Int) : State → State → Prop
  | out {s : State} {n : Int} : s.offset = .int n → ¬ (a ≤ n ∧ n < b) → Leaves a b s s
  | step {s s' s'' : State} {n : Int} : s.offset = .int n → a ≤ n ∧ n < b →
      s.step = (.ok true, s') → Leaves a b s' s'' → Leaves a b s s''

variable {a b m n : Int} {s s' s'' : State}

theorem Leaves.unique (h : Leaves a b s s') (h' : Leaves a b s s'') : s' = s'' := by
  induction h with
  | out hn hout =>
    cases h' with
    | out _ _ => rfl
    | step hk hin _ _ =>
      rw [hn] at hk
      cases hk
      exact absurd hin hout
  | step hn hin hs _ ih =>
    cases h' with
    | out hk hout =>
      rw [hn] at hk
      cases hk
      exact absurd hin hout
    | step _ _ hs' hrest =>
      rw [hs] at hs'
      cases hs'
      exact ih hrest

/-- a way out that a proposition decides -/
theorem Leaves.iff {P : Prop} [Decidable P] (h : Leaves a b s (if P then s' else s''))
    (hne : s' ≠ s'') : (Leaves a b s s' ↔ P) ∧ (Leaves a b s s'' ↔ ¬ P) := by
  by_cases hP : P
  · rw [if_pos hP] at h
    exact ⟨iff_of_true h hP, iff_of_false (fun h' => hne (h.unique h')) (not_not_intro hP)⟩
  · rw [if_neg hP] at h
    exact ⟨iff_of_false (fun h' => hne (h'.unique h)) hP, iff_of_true h hP⟩

theorem Advances.le (h : Advances s s') (hm : s.offset = .int m) (hn : s'.offset = .int n) :
    m ≤ n := by
  induction h generalizing m with
  | refl s =>
    rw [hm] at hn
    cases hn
    exact Int.le_refl _
  | step _ ha hb hlt _ ih =>
    rw [hm] at ha
    cases ha
    exact Int.le_trans (Int.le_of_lt hlt) (ih hb hn)

/-- steps down the code stay between their first and their last place -/
theorem Advances.leaves (h : Advances s s') (hm : s.offset = .int m) (ham : a ≤ m)
    (hn : s'.offset = .int n) (hnb : n < b) (hrest : Leaves a b s' s'') : Leaves a b s s'' := by
  induction h generalizing m with
  | refl _ => exact hrest
  | step hs hk hb hlt hadv ih =>
    rw [hm] at hk
    cases hk
    have hle := hadv.le hb hn
    exact .step hm ⟨ham, by omega⟩ hs (ih hb (by omega) hn hrest)

end Machine

namespace Generator

/-! ## code of tests -/

section

variable {xs c c' : List Item} {mem st : List Value} {fs : Frames} {ρ : String → Int}
  {out l : String} {F : Fragment}

/-- the code of a test is left for the label if the value of the expression is zero, and else for
what follows it -/
theorem leaves_test (hR : Readable xs mem fs ρ) {e : Expr} {cs : List Event} (he : ExprCode fs e cs)
    (hF : ∀ op, F.mul op → op = .times) (hw : e.Within F)
    (hlabel : operand xs l = .int (address xs c')) (hc : itemsOf cs ++ .opWord .je l :: c <:+ xs)
    (hc' : .label l :: c' <:+ xs) (hle : address xs c ≤ address xs c') :
    Leaves (address xs (itemsOf cs ++ .opWord .je l :: c)) (address xs c)
      (spot xs mem (itemsOf cs ++ .opWord .je l :: c) st out)
      (if e.computed ρ = 0 then spot xs mem c' st out else spot xs mem c st out) := by
  have hje := rest_append hc
  have hpos := rest_pos hR.ends hje nofun
  have hpos' := rest_pos hR.ends hc' nofun
  have hnext : address xs (.opWord .je l :: c) < address xs c := by
    rw [address, address, size_cons, Item.size]
    omega
  have hfirst : address xs (itemsOf cs ++ .opWord .je l :: c) ≤
      address xs (.opWord .je l :: c) := by
    rw [address, address, size_append]
    omega
  obtain ⟨pre, hpre⟩ := hje
  obtain ⟨pre', hpre'⟩ := rest_tail hc'
  have hstep : (spot xs mem (.opWord .je l :: c) (.int (e.computed ρ) :: st) out).step =
      (.ok true, spot xs mem (if e.computed ρ = 0 then c' else c) st out) :=
    spot_je hR.loaded hlabel hpre.symm hpre'.symm hpos hpos'
  rw [← apply_ite fun c => spot xs mem c st out]
  refine (he.advances hR hF hw hc).leaves rfl (Int.le_refl _) rfl hnext ?_
  refine .step rfl ⟨hfirst, hnext⟩ hstep (.out rfl ?_)
  split <;> omega

end

/-- events of a statement that tests the expression `e` before its body `s`: at most a label, the
events of `e`, a jump to the label `l` at the end, the events of `s`, and what comes up to `l` -/
structure TestCode (fs : Frames) (e : Expr) (s : Statement) (head test : List Event) (jump : Event)
    (body tail : List Event) (l : String) : Prop where
  head : size (itemsOf head) = 0
  test : ExprCode fs e test
  jump : jump.items = [.opWord .je l]
  body : ∃ n m, StatementCode assembly fs n s m body
  tail : ∃ mid, itemsOf tail = mid ++ [.label l]

variable {fs : Frames} {n m : Nat} {t s : Statement} {e : Expr} {es : List Event}

theorem StatementCode.test (h : StatementCode assembly fs n t m es)
    (ht : t = .ifThen (.odd e) s ∨ t = .whileDo (.odd e) s) :
    ∃ head test jump body tail l, TestCode fs e s head test jump body tail l ∧
      es = head ++ (test ++ jump :: (body ++ tail)) := by
  rcases ht with rfl | rfl
  · cases h with
    | @ifThen n m _ _ _ bs hc hs =>
      cases hc with
      | @odd _ cs he =>
        refine ⟨[], cs, .branch (assembly.label "if_false" (n + 1)), bs, [.join _], _,
          ⟨rfl, he, rfl, ⟨_, _, hs⟩, [], rfl⟩, ?_⟩
        rw [oddEvents, if_neg (by decide), List.append_nil]
        rfl
  · cases h with
    | @whileDo n m _ _ _ bs top bottom ht hb hc hs =>
      cases hc with
      | @odd _ cs he =>
        refine ⟨[.loopOpen top bottom], cs, .loopExit top bottom, bs,
          [.loopClose top bottom], bottom, ⟨rfl, he, rfl, ⟨_, _, hs⟩, [.opWord .jmp top], rfl⟩, ?_⟩
        rw [oddEvents, if_neg (by decide), List.append_nil]
        simp [loopEvents, assembly]

/-- some of the given events are those of the statement `t` -/
def Includes (T : Target) (fs : Frames) (es : List Event) (t : Statement) : Prop :=
  ∃ n m ds, StatementCode T fs n t m ds ∧ ds <:+: es

theorem Includes.mono {T : Target} {ds : List Event} (h : Includes T fs es t) (hes : es <:+: ds) :
    Includes T fs ds t := by
  obtain ⟨n, m, cs, hcs, hpart⟩ := h
  exact ⟨n, m, cs, hcs, hpart.trans hes⟩

theorem StatementCode.includes {T : Target} (h : StatementCode T fs n t m es) :
    Includes T fs es t :=
  ⟨n, m, es, h, List.infix_rfl⟩

/-- the events of the body of a loop are among its events, on either side of the test -/
theorem infix_loopEvents (T : Target) (top bottom : String) (cs ds : List Event) :
    ds <:+: .loopOpen top bottom :: (loopEvents T top bottom cs ds ++ [.loopClose top bottom]) := by
  rw [loopEvents]
  split
  · exact ⟨.loopOpen top bottom :: (cs ++ [.loopExit top bottom]), [.loopClose top bottom], by simp⟩
  · exact ⟨[.loopOpen top bottom], cs ++ [.loopClose top bottom], by simp⟩

mutual

theorem StatementCode.nodes {T : Target} : ∀ {n m : Nat} {s : Statement} {es : List Event},
    StatementCode T fs n s m es → ∀ t ∈ s.nodes, Includes T fs es t
  | n, _, _, _, .assign he hx =>
    List.forall_mem_singleton.2 (StatementCode.assign (n := n) he hx).includes
  | n, _, _, _, .call hp => List.forall_mem_singleton.2 (StatementCode.call (n := n) hp).includes
  | _, _, _, _, .block hs => List.forall_mem_cons.2 ⟨(StatementCode.block hs).includes, hs.nodes⟩
  | n, _, _, _, @StatementCode.ifThen _ _ _ _ _ _ cs bs hc hs => by
    refine List.forall_mem_cons.2 ⟨(StatementCode.ifThen hc hs).includes, fun t ht => ?_⟩
    refine (hs.nodes t ht).mono ⟨cs ++ [.branch (T.label "if_false" (n + 1))],
      [.join (T.label "if_false" (n + 1))], ?_⟩
    simp
  | _, _, _, _, @StatementCode.whileDo _ _ _ _ _ _ cs bs top bottom htop hbottom hc hs =>
    List.forall_mem_cons.2 ⟨(StatementCode.whileDo htop hbottom hc hs).includes,
      fun t ht => (hs.nodes t ht).mono (infix_loopEvents T top bottom cs bs)⟩
  | n, _, _, _, .print he => List.forall_mem_singleton.2 (StatementCode.print (n := n) he).includes

theorem StatementsCode.nodes {T : Target} : ∀ {n m : Nat} {ss : List Statement} {es : List Event},
    StatementsCode T fs n ss m es → ∀ t ∈ Statement.nodes.allNodes ss, Includes T fs es t
  | _, _, _, _, .nil => nofun
  | _, _, _, _, .cons hs hr => List.forall_mem_append.2
    ⟨fun t ht => (hs.nodes t ht).mono (List.prefix_append _ _).isInfix,
      fun t ht => (hr.nodes t ht).mono (List.suffix_append _ _).isInfix⟩

end

mutual

/-- every statement has code -/
theorem StatementCode.size_pos : ∀ {n m : Nat} {s : Statement} {es : List Event},
    StatementCode assembly fs n s m es → s.Shaped → 0 < size (itemsOf es)
  | _, _, _, _, .assign _ _, _ | _, _, _, _, .call _, _ | _, _, _, _, .print _, _
  | _, _, _, _, .whileDo _ _ _ _, _ => by simp [Event.items, Item.size]
  | _, _, _, _, .ifThen _ _, _ => by
    simp only [itemsOf_append, itemsOf_cons, size_append, Event.items, size_cons, Item.size]
    omega
  | _, _, _, _, .block hs, h => hs.size_pos h.1 h.2

theorem StatementsCode.size_pos : ∀ {n m : Nat} {ss : List Statement} {es : List Event},
    StatementsCode assembly fs n ss m es → ss ≠ [] → Statement.Shaped.shapedAll ss →
      0 < size (itemsOf es)
  | _, _, _, _, .nil, hne, _ => absurd rfl hne
  | _, _, _, _, .cons hs _, _, h => by
    have hfirst := hs.size_pos h.1
    rw [itemsOf_append, size_append]
    omega

end

/-! ## tests in a text -/

/-- the code of the statement `t` goes from `start` to `stop`, and inside it, behind a test, that of
the statement `s` from `enter` to `leave` -/
structure BodyIn (text : String) (t s : Statement) (start enter leave stop : String) : Prop where
  whole : StatementIn text t start stop
  body : StatementIn text s enter leave
  behind : (assemble start).length < (assemble enter).length
  nonempty : (assemble enter).length < (assemble leave).length
  inside : (assemble leave).length ≤ (assemble stop).length

/-- the test of the statement `t`, in the code of the events `es`: the events `test` of the
expression `e`, a jump to the label `l` in front of `c'`, and then the code `c`, which starts with
that of the body `s` -/
structure TestAt (es : List Event) (scope : List (Block × Nat)) (t : Statement) (e : Expr)
    (s : Statement) (fs : Frames) (test : List Event) (l : String) (c c' : List Item)
    (start enter leave stop : String) : Prop where
  code : ExprCode fs e test
  scope : List.Forall₂ (Labelled (cellsOf es)) fs scope
  text : BodyIn (render assembly es) t s start enter leave stop
  rest : itemsOf test ++ .opWord .je l :: c <:+ itemsOf es
  label : .label l :: c' <:+ itemsOf es
  start : ((assemble start).length : Int) =
    address (itemsOf es) (itemsOf test ++ .opWord .je l :: c)
  enter : ((assemble enter).length : Int) = address (itemsOf es) c
  stop : ((assemble stop).length : Int) = address (itemsOf es) c'

theorem ProgramCode.testAt {p : Program} {k : Nat} {f : Frame} (h : ProgramCode assembly p k f es)
    (hp : p.Shaped) {q : Part} (hq : q ∈ p.parts) (ht : t ∈ q.body.nodes)
    (hodd : t = .ifThen (.odd e) s ∨ t = .whileDo (.odd e) s) :
    ∃ fs test l c c' start enter leave stop,
      TestAt es q.scope t e s fs test l c c' start enter leave stop := by
  have hshaped : s.Shaped := by
    have hnode := (hp.parts q hq).nodes t ht
    rcases hodd with rfl | rfl <;> exact hnode
  obtain ⟨css, hparts, -, hheld⟩ := h.parts
  obtain ⟨i, hi⟩ := List.mem_iff_getElem?.1 hq
  obtain ⟨cs, hcs, fs, _, _, hfs, hs⟩ := forall₂_getElem? hparts hi
  obtain ⟨n, m, ds, hds, hpart⟩ := hs.nodes t ht
  obtain ⟨pre, post, hes⟩ := hpart.trans (hheld cs (List.mem_of_getElem? hcs))
  obtain ⟨head, test, jump, body, tail, l, hcode, rfl⟩ := hds.test hodd
  obtain ⟨n', m', hbody⟩ := hcode.body
  obtain ⟨mid, htail⟩ := hcode.tail
  -- the program, split where the statement starts, where its body does, and behind each of them
  have hes₀ : es = pre ++ ((head ++ (test ++ jump :: (body ++ tail))) ++ post) := by simp [← hes]
  have hes₁ : es = (pre ++ (head ++ (test ++ [jump]))) ++ (body ++ (tail ++ post)) := by
    simp [← hes]
  have hes₂ : es = ((pre ++ (head ++ (test ++ [jump]))) ++ body) ++ (tail ++ post) := by
    simp [← hes]
  have hxs : itemsOf es = itemsOf pre ++ (itemsOf head ++ (itemsOf test ++ .opWord .je l ::
      (itemsOf body ++ (mid ++ .label l :: itemsOf post)))) := by
    simp [hes₀, hcode.jump, htail]
  have hstart : ((assemble (render assembly pre)).length : Int) = address (itemsOf es)
      (itemsOf test ++ .opWord .je l :: (itemsOf body ++ (mid ++ .label l :: itemsOf post))) := by
    rw [h.length_assemble hp hes₀]
    simp [address, hcode.head, hcode.jump, htail]
  have henter : ((assemble (render assembly (pre ++ (head ++ (test ++ [jump]))))).length : Int) =
      address (itemsOf es) (itemsOf body ++ (mid ++ .label l :: itemsOf post)) := by
    rw [h.length_assemble hp hes₁]
    simp [htail]
  have hleave := h.length_assemble hp hes₂
  have hstop := h.length_assemble hp hes.symm
  have hworded := worded_of_labelled hfs
  have hwhole := hds.statementIn hworded pre post
  have hinner := hbody.statementIn hworded (pre ++ (head ++ (test ++ [jump]))) (tail ++ post)
  have hpos := hbody.size_pos hshaped
  rw [← hes₀] at hwhole
  rw [← hes₁] at hinner
  refine ⟨fs, test, l, itemsOf body ++ (mid ++ .label l :: itemsOf post), itemsOf post, _, _, _, _,
    hcode.test, hfs, ⟨hwhole, hinner, ?_, ?_, ?_⟩, ⟨itemsOf pre ++ itemsOf head, ?_⟩,
    ⟨itemsOf pre ++ (itemsOf head ++ (itemsOf test ++ .opWord .je l :: (itemsOf body ++ mid))), ?_⟩,
    hstart, henter, hstop⟩
  · simp only [address, size_append, size_cons, Item.size] at hstart henter
    omega
  · simp only [address, itemsOf_append, htail, size_append, size_cons, size_nil] at henter hleave
    omega
  · simp only [address, itemsOf_append, size_append] at hleave hstop
    omega
  · rw [hxs, List.append_assoc]
  · simp [hxs]

end Generator

/-- **What a test of parity is in compiled code.**  Let `IF ODD e THEN s` or `WHILE ODD e DO s` be
part of a parsed program, with sums and products in `e`.  Then the machine leaves the code of the
test for the code of `s` exactly if the evaluator gives another value than zero for `e`, and else
for the end of the statement; memory, stack and output stay as they are. -/
theorem odd_test_enters {source text : String} {p : Program} {f : Frame} {r : Value} {g : Gen}
    (hparse : (parseText source).1 = .ok p)
    (hcompile : translate assembly p.toValue {} = (.ok (f, r), text, g)) {q : Part}
    (hq : q ∈ p.parts) {t s : Statement} {e : Expr} (ht : t ∈ q.body.nodes)
    (hodd : t = .ifThen (.odd e) s ∨ t = .whileDo (.odd e) s) (hsum : e.Within .ordered) :
    ∃ start enter leave stop, BodyIn text t s start enter leave stop ∧
      ∀ {σ : Nat → Int} {mem : List Value} {gs : Frames}, HoldsValues text σ mem →
      Knows gs q.scope σ →
        ∃ v : Int, Evaluator.Settles gs e.toValue (.int v) ∧ ∀ st out,
          (Leaves (assemble start).length (assemble enter).length
            ⟨mem, st, .int (assemble start).length, out⟩
            ⟨mem, st, .int (assemble enter).length, out⟩ ↔ v ≠ 0) ∧
          (Leaves (assemble start).length (assemble enter).length
            ⟨mem, st, .int (assemble start).length, out⟩
            ⟨mem, st, .int (assemble stop).length, out⟩ ↔ v = 0) := by
  obtain ⟨es, hcode, rfl⟩ := program_emits hcompile
  have hp := shaped_of_parse hparse
  obtain ⟨fs, test, l, c, c', start, enter, leave, stop, htest⟩ := hcode.testAt hp hq ht hodd
  refine ⟨start, enter, leave, stop, htest.text, fun {σ mem gs} hmem hgs => ?_⟩
  refine ⟨e.denote (valueOf σ q.scope),
    Evaluator.settles_expr htest.code (reads_of_knows hgs htest.scope),
    fun st out => ?_⟩
  have hR := hcode.readable hp (asmLines_program hcode hp) hmem htest.scope
  have hlabel : operand (itemsOf es) l = .int (address (itemsOf es) c') := by
    obtain ⟨pre, hpre⟩ := htest.label
    exact hcode.operand_eq hp hpre.symm
  have hlt : address (itemsOf es) c < address (itemsOf es) c' := by
    have hnonempty := htest.text.nonempty
    have hinside := htest.text.inside
    rw [← htest.enter, ← htest.stop]
    omega
  have hne : spot (itemsOf es) mem c' st out ≠ spot (itemsOf es) mem c st out := by
    intro hsame
    have hoffset := Value.int.inj (congrArg State.offset hsame)
    omega
  rw [htest.start, htest.enter, htest.stop,
    ← Expr.computed_eq_denote (F := .ordered) (valueOf σ q.scope) (fun _ => id) hsum]
  exact ((leaves_test hR htest.code (fun _ => id) hsum hlabel htest.rest htest.label
    (Int.le_of_lt hlt)).iff hne).symm

/-- `x * (y + 1)` -/
def scaledNext : Expr :=
  .mk none (.mk (.name "x")
    [(.times, .paren (.mk none (.mk (.name "y") []) [(.plus, .mk (.number 1) [])]))]) []

/-- `x := x + 1` -/
def increaseX : Statement :=
  .assign "x" (.mk none (.mk (.name "x") []) [(.plus, .mk (.number 1) [])])

/-- a procedure with a loop that tests the parity of this expression -/
def parityLoop : Block := .mk none (some ["y"]) [] (.block [.whileDo (.odd scaledNext) increaseX])

def callParityLoop : Program := ⟨.mk none (some ["x"]) [("p", parityLoop)] (.call "p")⟩

def callParityLoopText : String :=
  "JMP main\nt_var_x_1:\n    0\n# Procedure p\nt_var_y_3:\n    0\nt_proc_p_2:\n" ++
    "t_while_start_4:\n\tLOAD t_var_x_1\n\tLOAD t_var_y_3\n\tPUSH 1\n\tADD\n\tMUL\n" ++
    "\tJE t_while_end_5\n\tLOAD t_var_x_1\n\tPUSH 1\n\tADD\n\tSAVE t_var_x_1\n" ++
    "\tJMP t_while_start_4\nt_while_end_5:\n\tRET\nmain:\n\tCALL t_proc_p_2\n\tHALT\n"

def callParityLoopFrame : Frame where
  vars := [(.str "x", .str "t_var_x_1")]
  procs := [(.str "p", .str "t_proc_p_2")]

set_option maxRecDepth 2000 in
theorem callParityLoop_compiles : translate assembly callParityLoop.toValue {} =
    (.ok (callParityLoopFrame, .none), callParityLoopText, { labels := 5 }) := by
  with_unfolding_all rfl

/-- the loop of the procedure is entered unless `x * (y + 1)` is zero -/
theorem parityLoop_enters : ∃ start enter leave stop,
    BodyIn callParityLoopText (.whileDo (.odd scaledNext) increaseX)
      increaseX start enter leave stop ∧
      ∀ {σ : Nat → Int} {mem : List Value} {gs : Frames}, HoldsValues callParityLoopText σ mem →
        Knows gs [(parityLoop, 1), (callParityLoop.block, 0)] σ →
        ∃ v : Int, Evaluator.Settles gs scaledNext.toValue (.int v) ∧ ∀ st out,
          (Leaves (assemble start).length (assemble enter).length
            ⟨mem, st, .int (assemble start).length, out⟩
            ⟨mem, st, .int (assemble enter).length, out⟩ ↔ v ≠ 0) ∧
          (Leaves (assemble start).length (assemble enter).length
            ⟨mem, st, .int (assemble start).length, out⟩
            ⟨mem, st, .int (assemble stop).length, out⟩ ↔ v = 0) := by
  have hparse : (parseText
      "var x; procedure p; var y; begin while odd x * (y + 1) do x := x + 1 end; call p.").1 =
        .ok callParityLoop := by
    with_unfolding_all rfl
  have hpart : ⟨parityLoop.body, [(parityLoop, 1), (callParityLoop.block, 0)]⟩ ∈
      callParityLoop.parts :=
    List.mem_cons_self
  have hnode : .whileDo (.odd scaledNext) increaseX ∈ parityLoop.body.nodes :=
    List.mem_cons_of_mem _ List.mem_cons_self
  have hsum : scaledNext.Within .ordered := by
    simp [scaledNext, Expr.Within, Expr.tailWithin, Term.Within, Term.tailWithin, Factor.Within,
      Fragment.ordered]
  exact odd_test_enters hparse callParityLoop_compiles hpart hnode (.inr rfl) hsum

/-- `IF ODD 2 THEN ! 1` -/
def printIfTwoOdd : Program :=
  ⟨.mk none none [] (.ifThen (.odd (.mk none (.mk (.number 2) []) []))
    (.print (.mk none (.mk (.number 1) []) [])))⟩

def printIfTwoOddText : String :=
  "JMP main\nmain:\n\tPUSH 2\n\tJE t_if_false_1\n\tPUSH 1\n\tPRINT\n\tPOP\nt_if_false_1:\n\tHALT\n"

/-- **Two passes for odd**: the evaluator prints nothing, and the machine enters the body and prints
1. -/
theorem two_tested_as_odd :
    (parseText "if odd 2 then ! 1 .").1 = .ok printIfTwoOdd ∧
      Evaluator.run 40 printIfTwoOdd.toValue {} = (.ok ({}, .none), {}) ∧
      translate assembly printIfTwoOdd.toValue {} =
        (.ok ({}, .none), printIfTwoOddText, { labels := 1 }) ∧
      State.runFor { memory := assemble printIfTwoOddText } 7 =
        ⟨.ok false, 7, ⟨assemble printIfTwoOddText, [], .int (-1), "1\n"⟩⟩ := by
  refine ⟨?_, ?_, ?_, ?_⟩ <;> with_unfolding_all rfl

end Pl0Kit
