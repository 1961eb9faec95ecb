import Pl0Kit.Proofs.CompiledExpressions

/-!
# What an expression leaves on the stack

The code of an expression pushes one element, and one more for each division in it: no instruction
is emitted for a division, so both of its operands stay.

`Turns xs mem code j k` says that `code` turns any `j` integers on top of a stack into `k` integers,
and leaves alone what is below.  Such codes follow one another like functions (`Turns.append`), also
with more integers than they need (`Turns.frame`).
-/

namespace Pl0Kit

mutual

/-- how many divisions an expression has -/
def Expr.divisions : Expr → Nat
  | .mk _ first rest => first.divisions + Expr.tailDivisions rest

def Expr.tailDivisions : List (AddOp × Term) → Nat
  | [] => 0
  | (_, x) :: rest => x.divisions + Expr.tailDivisions rest

def Term.divisions : Term → Nat
  | .mk first rest => first.divisions + Term.tailDivisions rest

def Term.tailDivisions : List (MulOp × Factor) → Nat
  | [] => 0
  | (.times, x) :: rest => x.divisions + Term.tailDivisions rest
  | (.divide, x) :: rest => x.divisions + Term.tailDivisions rest + 1

def Factor.divisions : Factor → Nat
  | .name _ => 0
  | .number _ => 0
  | .paren e => e.divisions

end

namespace Machine

/-! ## codes that turn integers into others -/

/-- `code` turns `j` integers on top of any stack into `k` integers -/
def Turns (xs : List Item) (mem : List Value) (code : List Item) (j k : Nat) : Prop :=
  ∀ ⦃ws : List Int⦄, ws.length = j → ∀ ⦃c : List Item⦄, code ++ c <:+ xs → ∀ st out,
    ∃ vs : List Int, vs.length = k ∧
      Leads (spot xs mem (code ++ c) (ws.map .int ++ st) out)
        (spot xs mem c (vs.map .int ++ st) out)

namespace Turns

variable {xs code code' : List Item} {mem : List Value} {i j k : Nat}

theorem nil (j : Nat) : Turns xs mem [] j j := fun ws hws _ _ _ _ => ⟨ws, hws, .refl _⟩

/-- integers that are not needed stay below -/
theorem frame (h : Turns xs mem code j k) (n : Nat) : Turns xs mem code (n + j) (n + k) := by
  intro ws hws c hc st out
  have hlen : (ws.take j).length = j := by rw [List.length_take]; omega
  obtain ⟨vs, hvs, hlead⟩ := h hlen hc ((ws.drop j).map .int ++ st) out
  refine ⟨vs ++ ws.drop j, by rw [List.length_append, List.length_drop]; omega, ?_⟩
  rw [← List.append_assoc, ← List.append_assoc, ← List.map_append, ← List.map_append,
    List.take_append_drop] at hlead
  exact hlead

theorem append (h : Turns xs mem code i j) (h' : Turns xs mem code' j k) :
    Turns xs mem (code ++ code') i k := by
  intro ws hws c hc st out
  rw [List.append_assoc] at hc ⊢
  obtain ⟨us, hus, hlead⟩ := h hws hc st out
  obtain ⟨vs, hvs, hlead'⟩ := h' hus (rest_append hc) st out
  exact ⟨vs, hvs, hlead.trans hlead'⟩

end Turns

end Machine

namespace Generator

open Machine

section

variable {xs : List Item} {mem : List Value} {fs : Frames} {ρ : String → Int}

theorem turns_add (hR : Readable xs mem fs ρ) (op : AddOp) :
    Turns xs mem (addEvent op).items 2 1 := by
  intro ws hws c hc st out
  obtain ⟨a, b, rfl⟩ := List.length_eq_two.1 hws
  exact ⟨[op.apply a b], rfl, (advance_add hR op a b hc).leads⟩

theorem turns_sign (hR : Readable xs mem fs ρ) (sign : Option AddOp) :
    Turns xs mem (itemsOf (signEvents sign)) 1 1 := by
  intro ws hws c hc st out
  obtain ⟨n, rfl⟩ := List.length_eq_one_iff.1 hws
  exact ⟨[signed sign n], rfl, (advance_sign hR sign n hc).leads⟩

theorem turns_mul (hR : Readable xs mem fs ρ) : Turns xs mem (itemsOf (mulEvents .times)) 2 1 := by
  intro ws hws c hc st out
  obtain ⟨a, b, rfl⟩ := List.length_eq_two.1 hws
  exact ⟨[a * b], rfl, (advance_binary hR.ends hR.loaded (o := .mul) rfl hc a b).leads⟩

mutual

/-- the code of an expression leaves one integer, and one for each division -/
theorem ExprCode.turns (hR : Readable xs mem fs ρ) : ∀ {e : Expr} {es : List Event},
    ExprCode fs e es → Turns xs mem (itemsOf es) 0 (e.divisions + 1)
  | .mk sign first rest, _, .mk ht hr => by
    have htail := (hr.turns hR).frame first.divisions
    have hsign := (turns_sign hR sign).frame (first.divisions + Expr.tailDivisions rest)
    rw [itemsOf_append, itemsOf_append, Expr.divisions]
    exact (ht.turns hR).append (htail.append hsign)

theorem TermsCode.turns (hR : Readable xs mem fs ρ) : ∀ {rest : List (AddOp × Term)}
    {es : List Event}, TermsCode fs rest es →
      Turns xs mem (itemsOf es) 1 (Expr.tailDivisions rest + 1)
  | _, _, .nil => .nil 1
  | (op, x) :: rest, _, .cons hx hr => by
    have hterm := (hx.turns hR).frame 1
    have hadd := (turns_add hR op).frame x.divisions
    have htail := (hr.turns hR).frame x.divisions
    rw [Nat.add_comm 1 (x.divisions + 1)] at hterm
    rw [itemsOf_append, itemsOf_cons, Expr.tailDivisions]
    exact hterm.append (hadd.append htail)

theorem TermCode.turns (hR : Readable xs mem fs ρ) : ∀ {x : Term} {es : List Event},
    TermCode fs x es → Turns xs mem (itemsOf es) 0 (x.divisions + 1)
  | .mk first rest, _, .mk hf hr => by
    have htail := (hr.turns hR).frame first.divisions
    rw [itemsOf_append, Term.divisions]
    exact (hf.turns hR).append htail

theorem FactorsCode.turns (hR : Readable xs mem fs ρ) : ∀ {rest : List (MulOp × Factor)}
    {es : List Event}, FactorsCode fs rest es →
      Turns xs mem (itemsOf es) 1 (Term.tailDivisions rest + 1)
  | _, _, .nil => .nil 1
  | (.times, x) :: rest, _, .cons hx hr => by
    have hfactor := (hx.turns hR).frame 1
    have hmul := (turns_mul hR).frame x.divisions
    have htail := (hr.turns hR).frame x.divisions
    rw [Nat.add_comm 1 (x.divisions + 1)] at hfactor
    rw [itemsOf_append, itemsOf_append, Term.tailDivisions]
    exact hfactor.append (hmul.append htail)
  | (.divide, x) :: rest, _, .cons hx hr => by
    -- no event stands for the division, so both operands stay
    have hfactor := (hx.turns hR).frame 1
    have htail := (hr.turns hR).frame (x.divisions + 1)
    rw [Nat.add_comm 1 (x.divisions + 1)] at hfactor
    rw [itemsOf_append, itemsOf_append, Term.tailDivisions,
      Nat.add_right_comm x.divisions (Term.tailDivisions rest) 1]
    exact hfactor.append htail

theorem FactorCode.turns (hR : Readable xs mem fs ρ) : ∀ {x : Factor} {es : List Event},
    FactorCode fs x es → Turns xs mem (itemsOf es) 0 (x.divisions + 1)
  | .name x, _, h => by
    intro ws hws c hc st out
    obtain rfl := List.length_eq_zero_iff.1 hws
    exact ⟨[ρ x], rfl, (advance_name hR h hc).leads⟩
  | .number n, _, .number => by
    intro ws hws c hc st out
    obtain rfl := List.length_eq_zero_iff.1 hws
    exact ⟨[(n : Int)], rfl, (advance_push hR.ends hR.loaded (operand_intText xs n) hc).leads⟩
  | .paren _, _, .paren h => h.turns hR

end

end

end Generator

open Machine Generator

/-- **What a compiled expression leaves on the stack.**  For every expression of a parsed program,
its code ends on any stack with one more element, and one for each division in the expression. -/
theorem compiled_expression_stack_effect {source text : String} {p : Program} {f : Frame}
    {r : Value} {g : Gen} (hparse : (parseText source).1 = .ok p)
    (hcompile : translate assembly p.toValue {} = (.ok (f, r), text, g)) {q : Part}
    (hq : q ∈ p.parts) {e : Expr} (he : e ∈ q.body.expressions) :
    ∃ start stop, CodeIn text e start stop ∧
      ∀ {σ : Nat → Int} {mem : List Value}, HoldsValues text σ mem → ∀ st out,
        ∃ vs : List Int, vs.length = e.divisions + 1 ∧
          Leads ⟨mem, st, .int (assemble start).length, out⟩
            ⟨mem, vs.map .int ++ st, .int (assemble stop).length, out⟩ := by
  obtain ⟨es, hcode, rfl⟩ := program_emits hcompile
  have hp := shaped_of_parse hparse
  obtain ⟨fs, ds, c, start, stop, hds⟩ := hcode.located hp hq he
  refine ⟨start, stop, hds.text, fun {σ mem} hmem st out => ?_⟩
  have hR := hcode.readable hp (asmLines_program hcode hp) hmem hds.scope
  have hnone : ([] : List Int).length = 0 := rfl
  rw [hds.start, hds.stop]
  exact hds.code.turns hR hnone hds.rest st out

/-- `x / (3 / x)` -/
def nestedQuotient : Expr :=
  .mk none (.mk (.name "x") [(.divide,
    .paren (.mk none (.mk (.number 3) [(.divide, .name "x")]) []))]) []

def printQuotient : Program := ⟨.mk none (some ["x"]) [] (.print nestedQuotient)⟩

def printQuotientText : String :=
  "JMP main\nt_var_x_1:\n    0\nmain:\n\tLOAD t_var_x_1\n\tPUSH 3\n\tLOAD t_var_x_1\n\tPRINT\n" ++
    "\tPOP\n\tHALT\n"

def printQuotientFrame : Frame where
  vars := [(.str "x", .str "t_var_x_1")]

/-- two divisions leave three elements -/
theorem nestedQuotient_stack_effect :
    ∃ start stop, CodeIn printQuotientText nestedQuotient start stop ∧
      ∀ {σ : Nat → Int} {mem : List Value}, HoldsValues printQuotientText σ mem → ∀ st out,
        ∃ vs : List Int, vs.length = 3 ∧
          Leads ⟨mem, st, .int (assemble start).length, out⟩
            ⟨mem, vs.map .int ++ st, .int (assemble stop).length, out⟩ := by
  have hparse : (parseText "var x; ! x / (3 / x) .").1 = .ok printQuotient := by
    with_unfolding_all rfl
  have hcompile : translate assembly printQuotient.toValue {} =
      (.ok (printQuotientFrame, .none), printQuotientText, { labels := 1 }) := by
    with_unfolding_all rfl
  have hpart : ⟨.print nestedQuotient, [(printQuotient.block, 0)]⟩ ∈ printQuotient.parts :=
    List.mem_cons_self
  exact compiled_expression_stack_effect hparse hcompile hpart List.mem_cons_self

/-- `1 / 1` -/
def oneByOne : Expr := .mk none (.mk (.number 1) [(.divide, .number 1)]) []

def oneByOneText : String := "JMP main\nmain:\n\tPUSH 1\n\tPUSH 1\n\tPRINT\n\tPOP\n\tHALT\n"

/-- **A division leaves two elements**: no instruction is emitted for it, and one of the operands is
still on the stack when the program has halted. -/
theorem division_leaves_operands :
    (parseText "! 1 / 1 .").1 = .ok ⟨.mk none none [] (.print oneByOne)⟩ ∧
      translate assembly (Program.mk (.mk none none [] (.print oneByOne))).toValue {} =
        (.ok ({}, .none), oneByOneText, {}) ∧
      State.runFor { memory := assemble oneByOneText, offset := .int 2 } 2 =
        ⟨.ok true, 2,
          { memory := assemble oneByOneText, stack := [.int 1, .int 1], offset := .int 6 }⟩ ∧
      (State.runFor { memory := assemble oneByOneText } 6).outcome = .ok false ∧
      (State.runFor { memory := assemble oneByOneText } 6).state.stack = [.int 1] := by
  refine ⟨?_, ?_, ?_, ?_, ?_⟩ <;> with_unfolding_all rfl

end Pl0Kit
