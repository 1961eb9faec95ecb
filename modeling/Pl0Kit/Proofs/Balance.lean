import Pl0Kit.Proofs.Fragment
import Pl0Kit.Proofs.Resolved

/-!
# Balanced code

`Fits xs J p d c` says that the code `c`, a rest of the program `xs`, can run with `d` temporaries
on the stack: every instruction finds its operands, labels, jumps and calls are met without
temporaries, and the code ends in a return (in procedures, `p = true`), in a halt (in the main
part), or by entering the main part.  `J p l` are the labels that jumps in such code may go to;
those of procedures may be called.

Expressions add one temporary and statements add none (`ExprCode.fits`, `StatementCode.fits`),
whatever follows them.  `Fits.drop` goes the other way: a rest of balanced code is balanced, with
the number of temporaries that the instructions before it leave (`effect`).
-/

namespace Pl0Kit.Machine

/-! ## effects of instructions -/

/-- how many temporaries an instruction adds -/
def Opcode.effect : Opcode → Int
  | .load | .push | .dup => 1
  | .save | .pop | .jlt | .jlte | .je | .jne | .jgte | .jgt | .cmplt | .cmplte | .cmpe | .cmpne
  | .cmpgte | .cmpgt | .mul | .div | .add | .sub => -1
  | .nop | .halt | .jmp | .call | .ret | .print | .debug => 0

theorem Opcode.effect_of_binary? {o : Opcode} {f : Int → Int → Int} (h : o.binary? = some f) :
    o.effect = -1 := by
  cases o <;> first | rfl | cases h

def Item.effect : Item → Int
  | .op o => o.effect
  | .opWord o _ => o.effect
  | _ => 0

def effect : List Item → Int
  | [] => 0
  | x :: xs => x.effect + effect xs

@[simp] theorem effect_nil : effect [] = 0 := rfl

@[simp] theorem effect_cons (x : Item) (xs : List Item) :
    effect (x :: xs) = x.effect + effect xs := rfl

@[simp] theorem effect_append (xs ys : List Item) : effect (xs ++ ys) = effect xs + effect ys := by
  induction xs with
  | nil => rw [List.nil_append, effect_nil, Int.zero_add]
  | cons x xs ih => rw [List.cons_append, effect_cons, effect_cons, ih, Int.add_assoc]

/-! ## balanced code -/

/-- a label of storage -/
def Stored (xs : List Item) (l : String) : Prop := ∃ a : Nat, operand xs l = .int a ∧ DataAt xs a

inductive Fits (xs : List Item) (J : Bool → String → Prop) (p : Bool) : Nat → List Item → Prop
  | label {l : String} {c : List Item} : Fits xs J p 0 c → Fits xs J p 0 (.label l :: c)
  | ret {c : List Item} : p = true → Fits xs J p 0 (.op .ret :: c)
  | halt {c : List Item} : p = false → Fits xs J p 0 (.op .halt :: c)
  | print {d : Nat} {c : List Item} :
      Fits xs J p (d + 1) c → Fits xs J p (d + 1) (.op .print :: c)
  | pop {d : Nat} {c : List Item} : Fits xs J p d c → Fits xs J p (d + 1) (.op .pop :: c)
  | binary {o : Opcode} {f : Int → Int → Int} {d : Nat} {c : List Item} :
      o.binary? = some f → Fits xs J p (d + 1) c → Fits xs J p (d + 2) (.op o :: c)
  | push {w : String} {n : Int} {d : Nat} {c : List Item} :
      operand xs w = .int n → Fits xs J p (d + 1) c → Fits xs J p d (.opWord .push w :: c)
  | load {l : String} {d : Nat} {c : List Item} :
      Stored xs l → Fits xs J p (d + 1) c → Fits xs J p d (.opWord .load l :: c)
  | save {l : String} {d : Nat} {c : List Item} :
      Stored xs l → Fits xs J p d c → Fits xs J p (d + 1) (.opWord .save l :: c)
  | je {l : String} {c : List Item} :
      J p l → Fits xs J p 0 c → Fits xs J p 1 (.opWord .je l :: c)
  | jmp {l : String} {c : List Item} :
      J p l → Fits xs J p 0 c → Fits xs J p 0 (.opWord .jmp l :: c)
  | call {l : String} {c : List Item} :
      J true l → Fits xs J p 0 c → Fits xs J p 0 (.opWord .call l :: c)
  | enter {c : List Item} : p = false → J false "main" → Fits xs J p 0 (.opWord .jmp "main" :: c)

/-- instructions after which balanced code need not go on -/
def Item.Final (x : Item) : Prop := x = .op .ret ∨ x = .op .halt ∨ x = .opWord .jmp "main"

/-- code that control leaves only at its end, or by jumps inside it and calls -/
def Open (c : List Item) : Prop := ∀ x ∈ c, ¬ x.Final

theorem Open.append {a b : List Item} (ha : Open a) (hb : Open b) : Open (a ++ b) :=
  List.forall_mem_append.2 ⟨ha, hb⟩

/-- the rest of balanced code is balanced -/
theorem Fits.drop {xs : List Item} {J : Bool → String → Prop} {p : Bool} {a b : List Item}
    (hopen : Open a) {d : Nat} (h : Fits xs J p d (a ++ b)) :
    ∃ k : Nat, (k : Int) = d + effect a ∧ Fits xs J p k b := by
  induction a generalizing d with
  | nil => exact ⟨d, by simp, h⟩
  | cons x a ih =>
    obtain ⟨hx, ha⟩ := List.forall_mem_cons.1 hopen
    rw [List.cons_append] at h
    -- every case continues with the rest of `a`; only the number of temporaries differs
    have hnext : ∀ {m : Nat}, Fits xs J p m (a ++ b) → (m : Int) = d + x.effect →
        ∃ k : Nat, (k : Int) = d + effect (x :: a) ∧ Fits xs J p k b := by
      intro m hm heq
      obtain ⟨k, hk, hb⟩ := ih ha hm
      refine ⟨k, ?_, hb⟩
      rw [effect_cons, hk, heq]
      omega
    cases h with
    | label h | print h | jmp _ h | call _ h => exact hnext h (by simp [Item.effect, Opcode.effect])
    | ret _ => exact absurd (.inl rfl) hx
    | halt _ => exact absurd (.inr (.inl rfl)) hx
    | enter _ _ => exact absurd (.inr (.inr rfl)) hx
    | pop h | save _ h =>
      refine hnext h ?_
      simp only [Item.effect, Opcode.effect]
      omega
    | binary hf h =>
      refine hnext h ?_
      simp only [Item.effect, Opcode.effect_of_binary? hf]
      omega
    | push _ h | load _ h =>
      refine hnext h ?_
      simp only [Item.effect, Opcode.effect]
      omega
    | je _ h =>
      refine hnext h ?_
      simp [Item.effect, Opcode.effect]

/-- before a label there are no temporaries -/
theorem Fits.split {xs : List Item} {J : Bool → String → Prop} {p : Bool} {l : String}
    {a c : List Item} (hopen : Open a) (h : Fits xs J p 0 (a ++ .label l :: c)) :
    effect a = 0 ∧ Fits xs J p 0 c := by
  obtain ⟨k, hk, hc⟩ := h.drop hopen
  cases hc with
  | label hc => exact ⟨by omega, hc⟩

/-- nor are there any where a part of the program ends -/
theorem Fits.effect_eq_zero {xs : List Item} {J : Bool → String → Prop} {p : Bool} {x : Item}
    {a c : List Item} (hopen : Open a) (hx : x = .op .ret ∨ x = .op .halt)
    (h : Fits xs J p 0 (a ++ x :: c)) : effect a = 0 := by
  obtain ⟨k, hk, hc⟩ := h.drop hopen
  rcases hx with rfl | rfl
  · cases hc with
    | ret _ => omega
    | binary hf _ => cases hf
  · cases hc with
    | halt _ => omega
    | binary hf _ => cases hf

end Pl0Kit.Machine

namespace Pl0Kit.Generator

open Machine

/-! ## generated code is balanced -/

section Fits

variable {xs : List Item} {J : Bool → String → Prop} {p : Bool} {fs : Frames}

/-- names in scope stand for numbers, storage and procedures of the program `xs` -/
abbrev InScope (xs : List Item) (J : Bool → String → Prop) (fs : Frames) : Prop :=
  ∀ f ∈ fs, Scoped (Stored xs) (J true) f

theorem fits_name (hfs : InScope xs J fs) {x : String} {es : List Event} {d : Nat} {c : List Item}
    (h : FactorCode fs (.name x) es) (hc : Fits xs J p (d + 1) c) :
    Fits xs J p d (itemsOf es ++ c) := by
  cases h with
  | var hf =>
    obtain ⟨l, rfl, hl⟩ := Scoped.find_var hfs hf
    exact .load hl hc
  | const hf =>
    obtain ⟨n, rfl⟩ := Scoped.find_const hfs hf
    exact .push (operand_intText xs n) hc

theorem fits_sign (sign : Option AddOp) {d : Nat} {c : List Item} (hc : Fits xs J p (d + 1) c) :
    Fits xs J p (d + 1) (itemsOf (signEvents sign) ++ c) := by
  rcases sign with _ | _ | _
  · exact hc
  · exact hc
  · exact .push (operand_minusOne xs) (.binary rfl hc)

mutual

theorem ExprCode.fits (hfs : InScope xs J fs) : ∀ {e : Expr} {es : List Event},
    ExprCode fs e es → e.Within .noDivision → ∀ {d : Nat} {c : List Item},
      Fits xs J p (d + 1) c → Fits xs J p d (itemsOf es ++ c)
  | .mk sign _ _, _, .mk ht hr, he, d, c, hc => by
    rw [itemsOf_append, itemsOf_append, List.append_assoc, List.append_assoc]
    exact ht.fits hfs he.1 (hr.fits hfs he.2 (fits_sign sign hc))

theorem TermsCode.fits (hfs : InScope xs J fs) : ∀ {ts : List (AddOp × Term)} {es : List Event},
    TermsCode fs ts es → Expr.tailWithin .noDivision ts → ∀ {d : Nat} {c : List Item},
      Fits xs J p (d + 1) c → Fits xs J p (d + 1) (itemsOf es ++ c)
  | _, _, .nil, _, _, _, hc => hc
  | (op, _) :: _, _, @TermsCode.cons _ _ _ _ _ ds hx hr, he, d, c, hc => by
    have hrest := hr.fits hfs he.2.2 hc
    have hop : Fits xs J p (d + 2) ((addEvent op).items ++ (itemsOf ds ++ c)) := by
      cases op with
      | plus | minus => exact .binary rfl hrest
    rw [itemsOf_append, itemsOf_cons, List.append_assoc, List.append_assoc]
    exact hx.fits hfs he.2.1 hop

theorem TermCode.fits (hfs : InScope xs J fs) : ∀ {x : Term} {es : List Event},
    TermCode fs x es → x.Within .noDivision → ∀ {d : Nat} {c : List Item},
      Fits xs J p (d + 1) c → Fits xs J p d (itemsOf es ++ c)
  | _, _, .mk hf hr, he, d, c, hc => by
    rw [itemsOf_append, List.append_assoc]
    exact hf.fits hfs he.1 (hr.fits hfs he.2 hc)

theorem FactorsCode.fits (hfs : InScope xs J fs) : ∀ {ts : List (MulOp × Factor)}
    {es : List Event}, FactorsCode fs ts es → Term.tailWithin .noDivision ts →
      ∀ {d : Nat} {c : List Item}, Fits xs J p (d + 1) c → Fits xs J p (d + 1) (itemsOf es ++ c)
  | _, _, .nil, _, _, _, hc => hc
  | (.times, _) :: _, _, .cons hx hr, he, d, c, hc => by
    rw [itemsOf_append, itemsOf_append, List.append_assoc, List.append_assoc]
    exact hx.fits hfs he.2.1 (.binary rfl (hr.fits hfs he.2.2 hc))
  | (.divide, _) :: _, _, .cons _ _, he, _, _, _ => nomatch he.1

theorem FactorCode.fits (hfs : InScope xs J fs) : ∀ {x : Factor} {es : List Event},
    FactorCode fs x es → x.Within .noDivision → ∀ {d : Nat} {c : List Item},
      Fits xs J p (d + 1) c → Fits xs J p d (itemsOf es ++ c)
  | .name _, _, h, _, _, _, hc => fits_name hfs h hc
  | .number n, _, .number, _, _, _, hc => .push (operand_intText xs n) hc
  | _, _, .paren h, he, _, _, hc => h.fits hfs he hc

end

theorem binary?_compare (op : RelOp) : ∃ f, (compareOpcode op.word).binary? = some f := by
  cases op <;> exact ⟨_, rfl⟩

theorem ConditionCode.fits (hfs : InScope xs J fs) {cond : Condition} {es : List Event}
    (h : ConditionCode assembly fs cond es) (hw : cond.Within .noDivision) {c : List Item}
    (hc : Fits xs J p 1 c) : Fits xs J p 0 (itemsOf es ++ c) := by
  cases h with
  | @odd e cs he =>
    rw [itemsOf_append, List.append_assoc]
    exact he.fits hfs hw.2 hc
  | @compare l r op w cs ds hl hr hop =>
    cases hop
    obtain ⟨f, hf⟩ := binary?_compare op
    rw [itemsOf_append, itemsOf_append, List.append_assoc, List.append_assoc]
    exact hl.fits hfs hw.2.1 (hr.fits hfs hw.2.2 (.binary hf hc))

mutual

theorem StatementCode.fits (hfs : InScope xs J fs) : ∀ {n m : Nat} {s : Statement}
    {es : List Event}, StatementCode assembly fs n s m es → s.Within .noDivision →
      (∀ l ∈ placedBy es, J p l) → ∀ {c : List Item}, Fits xs J p 0 c →
        Fits xs J p 0 (itemsOf es ++ c)
  | _, _, _, _, .assign he hf, hw, _, c, hc => by
    obtain ⟨l, rfl, hl⟩ := Scoped.find_var hfs hf
    rw [itemsOf_append, List.append_assoc]
    exact he.fits hfs hw (.save hl hc)
  | _, _, _, _, .call hf, _, _, c, hc => by
    obtain ⟨l, rfl, hl⟩ := Scoped.find_proc hfs hf
    exact .call hl hc
  | _, _, _, _, .block hs, hw, hJ, _, hc => hs.fits hfs hw hJ hc
  | n, _, _, _, .ifThen hcond hs, hw, hJ, c, hc => by
    rw [placedBy_ifThen, List.forall_mem_append, List.forall_mem_append] at hJ
    obtain ⟨-, hbody, hlabel⟩ := hJ
    have hl := hlabel _ List.mem_cons_self
    rw [itemsOf_ifThen]
    exact hcond.fits hfs hw.1 (.je hl (hs.fits hfs hw.2 hbody (.label hc)))
  | n, _, _, _, .whileDo _ _ hcond hs, hw, hJ, c, hc => by
    rw [placedBy_whileDo, List.forall_mem_cons, List.forall_mem_append,
      List.forall_mem_append] at hJ
    obtain ⟨ht, -, hbody, hbottom⟩ := hJ
    have hb := hbottom _ List.mem_cons_self
    rw [itemsOf_whileDo]
    exact .label (hcond.fits hfs hw.1 (.je hb (hs.fits hfs hw.2 hbody (.jmp ht (.label hc)))))
  | _, _, _, _, .print he, hw, _, c, hc => by
    rw [itemsOf_append, List.append_assoc]
    exact he.fits hfs hw (.print (.pop hc))

theorem StatementsCode.fits (hfs : InScope xs J fs) : ∀ {n m : Nat} {ss : List Statement}
    {es : List Event}, StatementsCode assembly fs n ss m es →
      Statement.Within.allWithin .noDivision ss → (∀ l ∈ placedBy es, J p l) →
        ∀ {c : List Item}, Fits xs J p 0 c → Fits xs J p 0 (itemsOf es ++ c)
  | _, _, _, _, .nil, _, _, _, hc => hc
  | _, _, _, _, .cons hs hr, hw, hJ, c, hc => by
    rw [placedBy_append, List.forall_mem_append] at hJ
    rw [itemsOf_append, List.append_assoc]
    exact hs.fits hfs hw.1 hJ.1 (hr.fits hfs hw.2 hJ.2 hc)

end

end Fits

end Pl0Kit.Generator
