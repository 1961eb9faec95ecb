import Pl0Kit.Proofs.Linking
import Pl0Kit.Proofs.Running

/-!
# Compiled programs do what the evaluator does

For a program of sums, products and comparisons of order, whose procedures have different names and
no declarations of their own: if the evaluator comes to an end, the assembled code of the program
comes to its halt, with an empty stack, the same output, and the same values of variables in their
cells (`compiled_program_agrees`).

The evaluator gives a derivation of `Runs` (`Evaluator.run_program`), and the machine follows that
derivation (`Runs.carries`).
-/

namespace Pl0Kit.Machine

/-- the place of a label in a text of assembly -/
def labelPlace? (text l : String) : Option Nat :=
  ((asmLines text.toList).foldl Assembly.addLine {}).place? l

/-- a machine that starts on some code comes to a halt, and is then in the state `final` -/
def HaltsAs (code : List Value) (final : State) : Prop :=
  ∃ n s, State.runFor { memory := code } n = ⟨.ok true, n, s⟩ ∧ s.opcode? = some .halt ∧
    State.runFor { memory := code } (n + 1) = ⟨.ok false, n + 1, final⟩

theorem labelPlace?_eq {text : String} {xs : List Item}
    (h : asmLines text.toList = xs.map Item.line) (l : String) :
    labelPlace? text l = (assembled xs).place? l := by
  rw [labelPlace?, h, foldl_addLine, List.append_nil]
  rfl

theorem place?_of_operand {xs : List Item} {l : String} {a : Nat} (hl : cellOf l.toList = .str l)
    (h : operand xs l = .int a) : (assembled xs).place? l = some a := by
  rw [operand, hl, Assembly.resolve] at h
  split at h
  · rename_i n hn
    rw [hn, Option.some.injEq]
    exact Int.ofNat.inj (Value.int.inj h)
  · cases h

theorem Leads.haltsAs {code : List Value} {s final : State} (h : Leads { memory := code } s)
    (hs : s.opcode? = some .halt) (hstep : s.step = (.ok false, final)) : HaltsAs code final := by
  obtain ⟨n, hn⟩ := h.runFor
  refine ⟨n, s, ?_, hs, ?_⟩
  · refine (hn 0 0).trans ?_
    rw [Nat.zero_add]
    rfl
  · refine (hn 1 0).trans ?_
    rw [State.runFor.go, hstep, Nat.zero_add]

end Pl0Kit.Machine

namespace Pl0Kit.Generator

open Machine

variable {p : Program} {m : Nat} {f : Frame} {es : List Event} {slot : String → Nat} {σ σ' : Store}
  {o : String}

/-- the code of a program ends with that of its statement -/
theorem ProgramCode.main {T : Target} (h : ProgramCode T p m f es) : ∃ k pre ds,
    StatementCode T [f] k p.block.body m ds ∧ itemsOf es = .opWord .jmp "main" ::
      (pre ++ .label "main" :: (itemsOf ds ++ [.op .halt])) := by
  cases h with
  | @mk k m f consts vars procs body cs ds _ hs =>
    refine ⟨k, itemsOf (cellEvents T 0 (vars.getD [])) ++ itemsOf cs, ds, hs, ?_⟩
    rw [itemsOf_program, List.append_assoc]

/-- the code of a program does what its statement means, from its start to its halt -/
theorem ProgramCode.carries (h : ProgramCode assembly p m f es)
    (hL : Linked (itemsOf es) p.block.scope [f] slot) (hw : p.Within .ordered)
    (hruns : Runs p.block.scope p.block.body σ σ' o) :
    [.op .halt] <:+ itemsOf es ∧
      Carries (itemsOf es) p.block.scope slot (itemsOf es) [.op .halt] σ σ' o := by
  obtain ⟨k, pre, ds, hs, hxs⟩ := h.main
  generalize itemsOf es = xs at *
  have hstart : .opWord .jmp "main" :: (pre ++ .label "main" :: (itemsOf ds ++ [.op .halt]))
      <:+ xs :=
    hxs ▸ List.suffix_rfl
  have hmain := rest_append (rest_tail hstart)
  have hbody := Runs.carries hL hruns hs (within_body hw) (rest_tail hmain)
  have hrun := (carries_jmp hL hstart hmain).trans hbody
  rw [String.empty_append, ← hxs] at hrun
  exact ⟨rest_append (rest_tail hmain), hrun⟩

/-- code that starts with storage full of zeros comes to its halt -/
theorem Carries.haltsAs {xs : List Item} {S : Scope}
    (h : Carries xs S slot xs [.op .halt] (fun _ => 0) σ o) (hend : [.op .halt] <:+ xs)
    (hslot : ∀ x ∈ S.vars, DataAt xs (slot x)) :
    ∃ mem, Holds S slot σ mem ∧ HaltsAs (code xs) ⟨mem, [], .int (-1), o⟩ := by
  have hzero : Holds S slot (fun _ => 0) (code xs) := fun x hx => code_data (hslot x hx)
  obtain ⟨mem, hm, hσ, hlead⟩ := @h _ [] "" (.code xs) hzero
  obtain ⟨pre, hpre⟩ := hend
  rw [view_start, String.empty_append] at hlead
  exact ⟨mem, hσ, hlead.haltsAs (view_opcode? hm hpre.symm rfl) (step_halt hm hpre.symm)⟩

end Pl0Kit.Generator

namespace Pl0Kit

open Machine Generator

/-- **Compiled programs agree with the evaluator.**  Let a program be parsed and compiled, with the
frame `f` of its names, and let the evaluator come to an end with the frame `F`.  Then the assembled
text is a list of integers on which the machine halts with an empty stack and the output of the
evaluator, and for each variable of `F` the cell at the place of its label in `f` holds its
value. -/
theorem compiled_program_agrees {source text : String} {p : Program} {f F : Frame} {r v : Value}
    {g : Gen} {fuel : Nat} {ev : Evaluator} (hparse : (parseText source).1 = .ok p)
    (hops : p.Within .ordered) (hflat : p.Flat)
    (hcompile : translate assembly p.toValue {} = (.ok (f, r), text, g))
    (heval : Evaluator.run fuel p.toValue {} = (.ok (F, v), ev)) :
    (∀ c ∈ assemble text, ∃ n : Int, c = .int n) ∧
      ∃ final, HaltsAs (assemble text) final ∧ final.stack = [] ∧ final.out = ev.out ∧
        ∀ e ∈ F.vars, ∃ x l a, e.1 = .str x ∧ f.vars.get? (.str x) = some (.str l) ∧
          labelPlace? text l = some a ∧ final.memory[a]? = some e.2 := by
  have hshaped := shaped_of_parse hparse
  obtain ⟨es, hcode, rfl⟩ := program_emits hcompile
  have hlines := asmLines_program hcode hshaped
  obtain ⟨label, hC⟩ := hcode.compiles hflat
  obtain ⟨slot, hL, hslot⟩ := hcode.linked hshaped hops hC
  -- the evaluator gives the meaning of the program
  have hcovers := hC.covers fun q b hq => hflat.bare (q, b) (mem_of_block hq)
  obtain ⟨k, pre, ds, hs, -⟩ := hcode.main
  obtain ⟨σ, hruns, hF⟩ := Evaluator.run_program hcovers hflat.nodup hs heval
  -- and the machine follows it
  obtain ⟨hend, hcarries⟩ := hcode.carries hL hops hruns
  obtain ⟨mem, hmem, hhalts⟩ := hcarries.haltsAs hend fun x hx => (hslot x hx).2
  rw [assemble_eq hlines]
  refine ⟨hcode.integers hshaped, _, hhalts, rfl, rfl, fun e he => ?_⟩
  rw [hF.vars] at he
  obtain ⟨x, hx, rfl⟩ := List.mem_map.1 he
  refine ⟨x, label x, slot x, rfl, ?_, ?_, hmem x hx⟩
  · rw [hC.vars, Table.get?_ofNames, if_pos hx]
  · rw [labelPlace?_eq hlines]
    exact place?_of_operand (hcode.cellOf_cell hshaped (hC.cell x hx).1) (hslot x hx).1

/-- the block of a procedure that prints `x` and adds one to it -/
def printNext : Block :=
  .mk none none [] (.block [.print (.mk none (.mk (.name "x") []) []),
    .assign "x" (.mk none (.mk (.name "x") []) [(.plus, .mk (.number 1) [])])])

/-- a loop that calls the procedure until `x` is one -/
def countUp : Program :=
  ⟨.mk none (some ["x"]) [("p", printNext)]
    (.whileDo (.compare (.mk none (.mk (.name "x") []) []) .lt (.mk none (.mk (.number 1) []) []))
      (.call "p"))⟩

theorem countUp_parses :
    (parseText "var x; procedure p; begin ! x; x := x + 1 end; while x < 1 do call p.").1 =
      .ok countUp := by
  with_unfolding_all rfl

def countUpText : String :=
  "JMP main\nt_var_x_1:\n    0\n# Procedure p\nt_proc_p_2:\n\tLOAD t_var_x_1\n\tPRINT\n\tPOP\n" ++
  "\tLOAD t_var_x_1\n\tPUSH 1\n\tADD\n\tSAVE t_var_x_1\n\tRET\nmain:\nt_while_start_3:\n" ++
  "\tLOAD t_var_x_1\n\tPUSH 1\n\tCMPLT\n\tJE t_while_end_4\n\tCALL t_proc_p_2\n" ++
  "\tJMP t_while_start_3\nt_while_end_4:\n\tHALT\n"

def countUpNames : Frame :=
  { vars := [(.str "x", .str "t_var_x_1")], procs := [(.str "p", .str "t_proc_p_2")] }

set_option maxRecDepth 2000 in
theorem countUp_compiles : translate assembly countUp.toValue {} =
    (.ok (countUpNames, .none), countUpText, { labels := 4 }) := by
  with_unfolding_all rfl

set_option maxRecDepth 2000 in
theorem countUp_evaluates : Evaluator.run 40 countUp.toValue {} =
    (.ok ({ vars := [(.str "x", .int 1)],
            procs := [(.str "p", .procedure (.str "p") printNext.toValue)] },
      .list [.none, .none, .none]), { out := "0\n" }) := by
  with_unfolding_all rfl

/-- the machine prints zero and leaves one in the cell of `x` -/
theorem countUp_agrees : (∀ c ∈ assemble countUpText, ∃ n : Int, c = .int n) ∧
    ∃ final, HaltsAs (assemble countUpText) final ∧ final.stack = [] ∧ final.out = "0\n" ∧
      ∀ e ∈ [(Value.str "x", Value.int 1)], ∃ x l a, e.1 = .str x ∧
        countUpNames.vars.get? (.str x) = some (.str l) ∧ labelPlace? countUpText l = some a ∧
          final.memory[a]? = some e.2 := by
  have hops : countUp.Within .ordered := by
    simp [countUp, printNext, Program.Within, Block.Within, Block.procsWithin, Statement.Within,
      Statement.Within.allWithin, Condition.Within, Expr.Within, Expr.tailWithin, Term.Within,
      Term.tailWithin, Factor.Within, Fragment.ordered]
  have hflat : countUp.Flat :=
    ⟨List.pairwise_singleton _ _, List.forall_mem_singleton.2 ⟨rfl, rfl, rfl⟩⟩
  exact compiled_program_agrees countUp_parses hops hflat countUp_compiles countUp_evaluates

end Pl0Kit
