import Pl0Kit.Proofs.Running
import Pl0Kit.Proofs.Shape

/-!
# Safety of compiled code

A program without division compiles to code that never goes wrong: no step fails, the offset is
always at an instruction of the text, only storage is written to, and the stack holds the places
where the active calls go on and above them the temporaries of the expression that is being
computed.  `Safe` says so in terms of the lines of the text, and `compiled_code_safe` shows it for
every machine that is `Reached`, whether or not the program ends.
-/

namespace Pl0Kit.Machine

/-! ## lines and their places -/

def AsmLine.size : AsmLine → Nat
  | .words ws => ws.length
  | _ => 0

/-- how many temporaries the instruction of a line adds -/
def AsmLine.effect : AsmLine → Int
  | .words (w :: _) => ((Opcode.ofName? (String.ofList w)).map Opcode.effect).getD 0
  | _ => 0

/-- lines with the places of their first words -/
def placedLines (n : Nat) : List AsmLine → List (Nat × AsmLine)
  | [] => []
  | x :: xs => (n, x) :: placedLines (n + x.size) xs

/-- the lines of a text with their places in the assembled code -/
def linesOf (text : String) : List (Nat × AsmLine) := placedLines 0 (asmLines text.toList)

/-- an instruction of the text starts at the place `n` -/
def InstructionAt (text : String) (n : Nat) (o : Opcode) : Prop :=
  ∃ args, (n, .words (o.name.toList :: args)) ∈ linesOf text

/-- the place `n` is the cell of a variable: its label, and a zero on the next line -/
def StorageAt (text : String) (n : Nat) : Prop :=
  ∃ pre l c, linesOf text = pre ++ (n, .label l) :: (n, .words [['0']]) :: c

/-- the place `r` is just behind the operand of a call -/
def ReturnPlace (text : String) (r : Int) : Prop :=
  ∃ (n : Nat) (w : List Char), r = n + 2 ∧ (n, .words [Opcode.call.name.toList, w]) ∈ linesOf text

/-- how many temporaries some lines leave -/
def leftBy : List (Nat × AsmLine) → Int
  | [] => 0
  | l :: ls => l.2.effect + leftBy ls

/-- how many temporaries the instructions above the place `n` leave -/
def temporariesAt (text : String) (n : Nat) : Int := leftBy ((linesOf text).filter fun l => l.1 < n)

/-! ## machines that are reached -/

/-- the machines that code leads to before a halt is performed, with the places where their active
calls go on -/
inductive Reached (code : List Value) : List Int → State → Prop
  | start : Reached code [] { memory := code }
  | step {calls : List Int} {s s' : State} {b : Bool} : Reached code calls s →
      s.opcode? ≠ some .halt → s.step = (.ok b, s') → Reached code (s.callsAfter calls) s'

/-- a machine that is about to perform the instruction `o` of a text -/
structure Safe (text : String) (calls : List Int) (s : State) (o : Opcode) : Prop where
  fetches : s.opcode? = some o
  /-- steps do not fail, and only a halt ends the run -/
  steps : s.step.1 = .ok (o != .halt)
  length_memory : s.memory.length = (assemble text).length
  /-- cells other than storage are as they were assembled -/
  keeps : ∀ n, ¬ StorageAt text n → s.memory[n]? = (assemble text)[n]?
  returns : ∀ r ∈ calls, ReturnPlace text r
  /-- the offset is at the instruction, and temporaries are on top of the active calls -/
  shape : ∃ (n : Nat) (temporaries : List Int), s.offset = .int n ∧ InstructionAt text n o ∧
    s.stack = (temporaries ++ calls).map .int ∧ temporaries.length = temporariesAt text n
  /-- a return finds the place of the latest call on top -/
  atReturn : o = .ret → calls ≠ [] ∧ s.stack = calls.map .int
  atHalt : o = .halt → s.stack = []

/-! ## lines of items -/

section Items

variable {xs pre c : List Item} {x : Item} {o : Opcode}

theorem size_line (x : Item) : x.line.size = x.size := by
  cases x <;> rfl

theorem effect_line (x : Item) : x.line.effect = x.effect := by
  have hname : ∀ (o : Opcode) ws, (AsmLine.words (o.name.toList :: ws)).effect = o.effect := by
    intro o ws
    rw [AsmLine.effect, ofName?_name]
    rfl
  cases x with
  | op o | opWord o w => exact hname o _
  | zero => decide +kernel
  | note | label l => rfl

theorem placedLines_append (n : Nat) (pre c : List Item) :
    placedLines n ((pre ++ c).map Item.line) =
      placedLines n (pre.map Item.line) ++ placedLines (n + size pre) (c.map Item.line) := by
  induction pre generalizing n with
  | nil => rfl
  | cons y pre ih =>
    rw [List.cons_append, List.map_cons, List.map_cons, placedLines, placedLines, ih, size_line,
      size_cons, Nat.add_assoc]
    rfl

theorem le_of_mem_placedLines {n : Nat} {ls : List AsmLine} {l : Nat × AsmLine}
    (h : l ∈ placedLines n ls) : n ≤ l.1 := by
  induction ls generalizing n with
  | nil => cases h
  | cons y ls ih =>
    rcases List.mem_cons.1 h with rfl | h
    · exact Nat.le_refl n
    · exact Nat.le_trans (Nat.le_add_right n y.size) (ih h)

theorem effect_of_size_zero (h : x.size = 0) : x.effect = 0 := by
  cases x with
  | note | label _ => rfl
  | zero | op _ | opWord _ _ => cases h

/-- items of no size at the end are not above the place, but add nothing -/
theorem leftBy_placed {n m : Nat} (h : m = n + size pre) :
    leftBy ((placedLines n (pre.map Item.line)).filter fun l => l.1 < m) = effect pre := by
  induction pre generalizing n with
  | nil => rfl
  | cons y pre ih =>
    rw [size_cons, ← Nat.add_assoc] at h
    have hrest := ih h
    rw [List.map_cons, placedLines, effect_cons, ← hrest, size_line]
    by_cases hlt : n < m
    · rw [List.filter_cons_of_pos (by simpa using hlt), leftBy, effect_line]
    · have hsize : y.size = 0 := by omega
      rw [List.filter_cons_of_neg (by simpa using hlt), effect_of_size_zero hsize, Int.zero_add]

theorem leftBy_above (pre c : List Item) :
    leftBy ((placedLines 0 ((pre ++ c).map Item.line)).filter fun l => l.1 < size pre) =
      effect pre := by
  have hbelow : (placedLines (0 + size pre) (c.map Item.line)).filter
      (fun l => l.1 < size pre) = [] := by
    refine List.filter_eq_nil_iff.2 fun l hl => ?_
    have hle := le_of_mem_placedLines hl
    simp only [decide_eq_true_eq]
    omega
  rw [placedLines_append, List.filter_append, hbelow, List.append_nil]
  exact leftBy_placed (Nat.zero_add _).symm

end Items

/-! ## texts of items -/

section Texts

variable {text : String} {xs pre c : List Item} {x : Item} {o : Opcode}

theorem linesOf_eq (h : asmLines text.toList = xs.map Item.line) (hxs : xs = pre ++ c) :
    linesOf text = placedLines 0 (pre.map Item.line) ++
      placedLines (size pre) (c.map Item.line) := by
  rw [linesOf, h, hxs, placedLines_append, Nat.zero_add]

theorem line_mem (h : asmLines text.toList = xs.map Item.line) (hxs : xs = pre ++ x :: c) :
    (size pre, x.line) ∈ linesOf text := by
  rw [linesOf_eq h hxs]
  exact List.mem_append_right _ List.mem_cons_self

theorem instructionAt (h : asmLines text.toList = xs.map Item.line) (hxs : xs = pre ++ x :: c)
    (hx : x.opcode? = some o) : InstructionAt text (size pre) o := by
  have hmem := line_mem h hxs
  cases x with
  | op o' | opWord o' w =>
    cases hx
    exact ⟨_, hmem⟩
  | note | label _ | zero => cases hx

theorem storageAt (h : asmLines text.toList = xs.map Item.line) {n : Nat} (hn : DataAt xs n) :
    StorageAt text n := by
  obtain ⟨pre, l, c, hxs, rfl⟩ := hn
  exact ⟨_, _, _, linesOf_eq h hxs⟩

theorem temporariesAt_eq (h : asmLines text.toList = xs.map Item.line) (hxs : xs = pre ++ c) :
    temporariesAt text (size pre) = effect pre := by
  rw [temporariesAt, linesOf, h, hxs, leftBy_above]

theorem Calls.returnPlace {J : Bool → String → Prop} {p : Bool} {ks : List Int}
    (h : asmLines text.toList = xs.map Item.line) (hks : Calls xs J p ks) :
    ∀ r ∈ ks, ReturnPlace text r := by
  induction hks with
  | main => exact nofun
  | @call p ks pre c l hxs _ _ _ ih =>
    refine List.forall_mem_cons.2 ⟨⟨size pre, l.toList, ?_, line_mem h hxs⟩, ih⟩
    rw [address_after hxs, Int.add_assoc]
    rfl

end Texts

/-! ## safety -/

section Safety

variable {text : String} {xs : List Item} {J : Bool → String → Prop} {calls : List Int} {s : State}

theorem Fits.at_halt {p : Bool} {d : Nat} {x : Item} {c : List Item} (h : Fits xs J p d (x :: c))
    (hx : x.opcode? = some .halt) : x = .op .halt ∧ p = false ∧ d = 0 := by
  cases h with
  | halt hp => exact ⟨rfl, hp, rfl⟩
  | binary hf _ =>
    cases hx
    cases hf
  | _ => cases hx

theorem Fits.at_ret {p : Bool} {d : Nat} {x : Item} {c : List Item} (h : Fits xs J p d (x :: c))
    (hx : x.opcode? = some .ret) : p = true ∧ d = 0 := by
  cases h with
  | ret hp => exact ⟨hp, rfl⟩
  | binary hf _ =>
    cases hx
    cases hf
  | _ => cases hx

theorem Calls.eq_nil (h : Calls xs J false calls) : calls = [] := by
  cases h
  rfl

theorem Calls.ne_nil (h : Calls xs J true calls) : calls ≠ [] := by
  cases h
  exact List.cons_ne_nil _ _

theorem Running.safe (h : asmLines text.toList = xs.map Item.line) (hclosed : Closed xs J)
    (hrun : Running xs J calls s) : ∃ o, Safe text calls s o := by
  obtain ⟨p, pre, x, c, o, mem, ts, out, hxs, hx, hm, hfits, heffect, hks, rfl⟩ := hrun.settled
  have hcode : assemble text = code xs := assemble_eq h
  refine ⟨o, view_opcode? hm hxs hx, ?_, ?_, ?_, hks.returnPlace h, ?_, ?_, ?_⟩
  · by_cases ho : o = .halt
    · subst ho
      obtain ⟨rfl, -⟩ := hfits.at_halt hx
      rw [step_halt hm hxs]
      rfl
    · obtain ⟨s', hstep, -⟩ := hfits.step hclosed hm hxs heffect hks hx ho
      rw [hstep, bne_iff_ne.2 ho]
  · rw [hcode, length_code]
    exact hm.length
  · intro n hn
    rw [hcode]
    exact hm.same n fun hd => hn (storageAt h hd)
  · refine ⟨size pre, ts, ?_, instructionAt h hxs hx, rfl, ?_⟩
    · rw [view, address_eq hxs]
    · rw [temporariesAt_eq h hxs, heffect]
  · rintro rfl
    obtain ⟨rfl, hd⟩ := hfits.at_ret hx
    obtain rfl := List.eq_nil_of_length_eq_zero hd
    exact ⟨hks.ne_nil, rfl⟩
  · rintro rfl
    obtain ⟨-, rfl, hd⟩ := hfits.at_halt hx
    obtain rfl := List.eq_nil_of_length_eq_zero hd
    obtain rfl := hks.eq_nil
    rfl

/-- **The invariant holds along every run.** -/
theorem Reached.running (hclosed : Closed xs J) (hstart : Fits xs J false 0 xs)
    (h : Reached (code xs) calls s) : Running xs J calls s := by
  induction h with
  | start =>
    exact ⟨false, [], xs, code xs, [], "", rfl, .code xs, hstart, rfl, .main,
      (view_start xs _).symm⟩
  | @step calls s s' b _ hne hstep ih =>
    obtain ⟨p, pre, x, c, o, mem, ts, out, hxs, hx, hm, hfits, heffect, hks, rfl⟩ := ih.settled
    have ho : o ≠ .halt := by
      rintro rfl
      exact hne (view_opcode? hm hxs hx)
    obtain ⟨s'', hstep', hrun, -⟩ := hfits.step hclosed hm hxs heffect hks hx ho
    rw [hstep] at hstep'
    cases hstep'
    exact hrun

end Safety

end Pl0Kit.Machine

namespace Pl0Kit

open Machine Generator

/-- **Compiled code is safe.**  The text that a parsed program without division compiles to
assembles to code all of whose reached machines are safe. -/
theorem compiled_code_safe {source text : String} {p : Program} {f : Frame} {r : Value} {g : Gen}
    (hparse : (parseText source).1 = .ok p) (hdiv : p.Within .noDivision)
    (hcompile : translate assembly p.toValue {} = (.ok (f, r), text, g)) {calls : List Int}
    {s : State} (hs : Reached (assemble text) calls s) : ∃ o, Safe text calls s o := by
  have hshaped := shaped_of_parse hparse
  obtain ⟨es, hcode, rfl⟩ := program_emits hcompile
  have hlines := asmLines_program hcode hshaped
  obtain ⟨J, hclosed, hstart⟩ := hcode.closed hshaped hdiv
  rw [assemble_eq hlines] at hs
  exact (hs.running hclosed hstart).safe hlines hclosed

/-- a procedure that prints, and a call of it -/
def callPrint : Program :=
  ⟨.mk none none [("p", .mk none none [] (.print (.mk none (.mk (.number 1) []) [])))] (.call "p")⟩

theorem callPrint_parses : (parseText "procedure p; ! 1; call p.").1 = .ok callPrint := by
  with_unfolding_all rfl

def callPrintText : String :=
  "JMP main\n# Procedure p\nt_proc_p_1:\n\tPUSH 1\n\tPRINT\n\tPOP\n\tRET\n" ++
    "main:\n\tCALL t_proc_p_1\n\tHALT\n"

theorem callPrint_compiles : translate assembly callPrint.toValue {} =
    (.ok ({ procs := [(.str "p", .str "t_proc_p_1")] }, .none), callPrintText,
      { labels := 1 }) := by
  with_unfolding_all rfl

def callPrintCode : List Value := [16, 7, 10, 1, 50, 11, 18, 17, 2, 1].map .int

theorem callPrint_assembles : assemble callPrintText = callPrintCode := by
  with_unfolding_all rfl

/-- in front of the `PRINT`, a temporary is on top of the place behind the call -/
theorem callPrint_safe :
    ∃ o, Safe callPrintText [9] ⟨callPrintCode, [.int 1, .int 9], .int 4, ""⟩ o := by
  have hwithin : callPrint.Within .noDivision := by
    simp [callPrint, Program.Within, Block.Within, Block.procsWithin, Statement.Within,
      Expr.Within, Expr.tailWithin, Term.Within, Term.tailWithin, Factor.Within]
  have hmain : Reached callPrintCode [] ⟨callPrintCode, [], .int 7, ""⟩ :=
    Reached.start.step nofun rfl
  have hcall : Reached callPrintCode [9] ⟨callPrintCode, [.int 9], .int 2, ""⟩ :=
    hmain.step nofun rfl
  have hpush : Reached callPrintCode [9] ⟨callPrintCode, [.int 1, .int 9], .int 4, ""⟩ :=
    hcall.step nofun rfl
  have hreached : Reached (assemble callPrintText) [9]
      ⟨callPrintCode, [.int 1, .int 9], .int 4, ""⟩ := by
    rw [callPrint_assembles]
    exact hpush
  exact compiled_code_safe callPrint_parses hwithin callPrint_compiles hreached

end Pl0Kit
