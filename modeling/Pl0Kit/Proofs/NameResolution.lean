import Pl0Kit.Proofs.Correctness
import Pl0Kit.Proofs.Declarations
import Pl0Kit.Proofs.LabelNames
import Pl0Kit.Proofs.Safety

/-!
# Names in compiled code

Every name in the text of a compiled program is defined once and stands for what it should: jumps
and calls go to instructions, loads and saves to the cell of the declaration that the name in the
program refers to. `NamesResolve` says so in terms of the lines of the text, and
`compiled_names_resolve` shows it for every program, also for one with divisions.
-/

namespace Pl0Kit.Machine

open Generator

/-! ## names in a text -/

def AsmLine.label? : AsmLine → Option String
  | .label l => some (String.ofList l)
  | _ => none

/-- the instruction of a line -/
def AsmLine.opcode? : AsmLine → Option Opcode
  | .words (w :: _) => Opcode.ofName? (String.ofList w)
  | _ => none

/-- the labels that a text defines -/
def labelsIn (text : String) : List String := (linesOf text).filterMap fun l => l.2.label?

/-- the places of the cells of variables -/
def cellsIn (text : String) : List Nat :=
  (linesOf text).filterMap fun l => if l.2 = .words [['0']] then some l.1 else none

/-- the loads and saves of a text, with the assembled cells behind them -/
def accessesIn (text : String) : List (Opcode × Option Value) :=
  (linesOf text).filterMap fun l =>
    match l.2.opcode? with
    | some .load => some (.load, (assemble text)[l.1 + 1]?)
    | some .save => some (.save, (assemble text)[l.1 + 1]?)
    | _ => none

/-- a load or save of the declaration `a`, whose cell is the operand -/
def AccessTo (cells : List Nat) (a : Opcode × Nat) (b : Opcode × Option Value) : Prop :=
  a.1 = b.1 ∧ ∃ n : Nat, cells[a.2]? = some n ∧ b.2 = some (.int n)

/-- all names of a text of the program `p` are resolved -/
structure NamesResolve (p : Program) (text : String) : Prop where
  /-- no label is defined twice -/
  labels_nodup : (labelsIn text).Nodup
  /-- operands other than pushed numbers are labels of the text -/
  operands : ∀ n w v, (n, .words [w, v]) ∈ linesOf text → w ≠ Opcode.push.name.toList →
    String.ofList v ∈ labelsIn text
  integers : ∀ v ∈ assemble text, ∃ n : Int, v = .int n
  jumps : ∀ l ∈ linesOf text, ∀ o ∈ l.2.opcode?, o = .jmp ∨ o = .je ∨ o = .call →
    ∃ (n : Nat) (o' : Opcode), (assemble text)[l.1 + 1]? = some (.int n) ∧ InstructionAt text n o'
  /-- each declaration has a cell, at a label with the name of the variable -/
  cells : List.Forall₂ (fun x n => ∃ k, labelPlace? text (varLabel assembly k x) = some n)
    p.declarations (cellsIn text)
  cells_nodup : (cellsIn text).Nodup
  /-- cells are outside of instructions -/
  cells_apart : ∀ l ∈ linesOf text, l.2.opcode?.isSome → ∀ i < l.2.size, l.1 + i ∉ cellsIn text
  accesses : List.Forall₂ (AccessTo (cellsIn text)) p.accesses (accessesIn text)

/-! ## lines of items -/

section Lines

variable {text : String} {xs : List Item}

theorem opcode?_line (x : Item) : x.line.opcode? = x.opcode? := by
  cases x with
  | op o | opWord o w => exact ofName?_name o
  | zero => decide +kernel
  | note | label l => rfl

theorem line_eq_zero {x : Item} (h : x.line = .words [['0']]) : x = .zero := by
  have hname : ∀ o : Opcode, o.name.toList ≠ ['0'] := by
    intro o
    cases o <;> decide +kernel
  cases x with
  | zero => rfl
  | op o =>
    injection h with h
    exact absurd (List.cons.inj h).1 (hname o)
  | opWord o w =>
    injection h with h
    cases (List.cons.inj h).2
  | note | label l => cases h

/-- the lines of a text are those of its items -/
theorem mem_linesOf (h : asmLines text.toList = xs.map Item.line) {l : Nat × AsmLine}
    (hl : l ∈ linesOf text) : ∃ pre x c, xs = pre ++ x :: c ∧ l = (size pre, x.line) := by
  suffices hall : ∀ ys pre, xs = pre ++ ys → l ∈ placedLines (size pre) (ys.map Item.line) →
      ∃ pre x c, xs = pre ++ x :: c ∧ l = (size pre, x.line) by
    rw [linesOf, h] at hl
    exact hall xs [] rfl hl
  intro ys
  induction ys with
  | nil =>
    intro pre _ hl
    cases hl
  | cons y ys ih =>
    intro pre hxs hl
    rcases List.mem_cons.1 hl with rfl | hl
    · exact ⟨pre, y, ys, hxs, rfl⟩
    · refine ih (pre ++ [y]) (by simp [hxs]) ?_
      rw [size_append, size_cons, size_nil, Nat.add_zero, ← size_line]
      exact hl

/-- what is taken from the lines of a text, taken from its items -/
theorem filterMap_linesOf {α : Type} (h : asmLines text.toList = xs.map Item.line)
    {g : Nat × AsmLine → Option α} {k : Item → Option α}
    (hgk : ∀ pre x c, xs = pre ++ x :: c → g (size pre, x.line) = k x) :
    (linesOf text).filterMap g = xs.filterMap k := by
  suffices hall : ∀ ys pre, xs = pre ++ ys →
      (placedLines (size pre) (ys.map Item.line)).filterMap g = ys.filterMap k by
    rw [linesOf, h]
    exact hall xs [] rfl
  intro ys
  induction ys with
  | nil => exact fun _ _ => rfl
  | cons y ys ih =>
    intro pre hxs
    have hrest := ih (pre ++ [y]) (by simp [hxs])
    rw [size_append, size_cons, size_nil, Nat.add_zero, ← size_line] at hrest
    rw [List.map_cons, placedLines, List.filterMap_cons, List.filterMap_cons, hgk pre y ys hxs,
      hrest]

theorem labelsIn_eq (h : asmLines text.toList = xs.map Item.line) :
    labelsIn text = labelsOf xs := by
  have hlabels : labelsIn text = xs.filterMap fun x => x.labels.head? := by
    refine filterMap_linesOf h fun pre x c _ => ?_
    cases x with
    | label l => exact congrArg some String.ofList_toList
    | note | zero | op o | opWord o w => rfl
  rw [hlabels, labelsOf]
  clear h hlabels
  induction xs with
  | nil => rfl
  | cons x xs ih =>
    rw [List.flatMap_cons, ← ih]
    cases x <;> rfl

/-- instructions that have an operand -/
def Opcode.hasOperand : Opcode → Bool
  | .load | .save | .push | .jmp | .call | .jlt | .jlte | .je | .jne | .jgte | .jgt => true
  | _ => false

/-- operands are not left out -/
def Complete (xs : List Item) : Prop := ∀ o, .op o ∈ xs → o.hasOperand = false

/-- the cell behind an instruction that has an operand -/
theorem Complete.operand (h : asmLines text.toList = xs.map Item.line) (hxs : Complete xs)
    {l : Nat × AsmLine} (hl : l ∈ linesOf text) {o : Opcode} (ho : l.2.opcode? = some o)
    (hop : o.hasOperand = true) :
    ∃ w, .opWord o w ∈ xs ∧ (assemble text)[l.1 + 1]? = some (operand xs w) := by
  obtain ⟨pre, x, c, hsplit, rfl⟩ := mem_linesOf h hl
  rw [opcode?_line] at ho
  cases x with
  | note | zero | label l => cases ho
  | op o' =>
    cases ho
    rw [hxs o (by simp [hsplit])] at hop
    cases hop
  | opWord o' w =>
    cases ho
    refine ⟨w, by simp [hsplit], ?_⟩
    rw [assemble_eq h]
    exact ((Loaded.code xs).opWord hsplit).2

/-- the load or save of an item -/
def Item.access? : Item → Option (Opcode × String)
  | .opWord .load w => some (.load, w)
  | .opWord .save w => some (.save, w)
  | _ => none

theorem accessesIn_eq (h : asmLines text.toList = xs.map Item.line) (hxs : Complete xs) :
    accessesIn text =
      (xs.filterMap Item.access?).map fun a => (a.1, some (operand xs a.2)) := by
  rw [List.map_filterMap]
  refine filterMap_linesOf h fun pre x c hsplit => ?_
  rw [opcode?_line, assemble_eq h]
  cases x with
  | note | zero | label l => rfl
  | op o =>
    have ho := hxs o (by simp [hsplit])
    cases o with
    | load | save => cases ho
    | _ => rfl
  | opWord o w =>
    have hcell := ((Loaded.code xs).opWord hsplit).2
    cases o with
    | load | save => simp only [Item.opcode?, Item.access?, hcell, Option.map_some]
    | _ => rfl

/-! ## cells -/

theorem mem_cellsIn (h : asmLines text.toList = xs.map Item.line) {n : Nat}
    (hn : n ∈ cellsIn text) : ∃ pre c, xs = pre ++ .zero :: c ∧ n = size pre := by
  obtain ⟨l, hl, hcell⟩ := List.mem_filterMap.1 hn
  obtain ⟨pre, x, c, hxs, rfl⟩ := mem_linesOf h hl
  split at hcell
  · rename_i hzero
    obtain rfl := line_eq_zero hzero
    cases hcell
    exact ⟨pre, c, hxs, rfl⟩
  · cases hcell

/-- the words of instructions are no cells -/
theorem cellsIn_apart (h : asmLines text.toList = xs.map Item.line) {l : Nat × AsmLine}
    (hl : l ∈ linesOf text) (ho : l.2.opcode?.isSome) {i : Nat} (hi : i < l.2.size) :
    l.1 + i ∉ cellsIn text := by
  intro hmem
  obtain ⟨pre, x, c, hxs, rfl⟩ := mem_linesOf h hl
  obtain ⟨pre', c', hxs', hsize⟩ := mem_cellsIn h hmem
  rw [size_line] at hi
  have hz : Item.zero.size = 1 := rfl
  obtain ⟨-, rfl, -⟩ := eq_of_overlap (hxs.symm.trans hxs') (by omega) (by omega)
  rw [opcode?_line] at ho
  cases ho

theorem pairwise_placedLines (n : Nat) (ls : List AsmLine) :
    (placedLines n ls).Pairwise fun l k => l.1 + l.2.size ≤ k.1 := by
  induction ls generalizing n with
  | nil => exact .nil
  | cons l ls ih => exact .cons (fun k hk => le_of_mem_placedLines hk) (ih (n + l.size))

/-- different cells are at different places -/
theorem nodup_cellsIn (text : String) : (cellsIn text).Nodup := by
  refine (pairwise_placedLines 0 _).filterMap _ fun l k hlk a ha b hb => ?_
  split at ha
  · rename_i hl
    split at hb
    · cases ha
      cases hb
      rw [hl] at hlk
      exact Nat.ne_of_lt hlk
    · cases hb
  · cases ha

end Lines

/-! ## instructions behind labels -/

/-- an instruction comes next, behind labels and comments -/
def Starts (c : List Item) : Prop := ∃ a x b o, c = a ++ x :: b ∧ size a = 0 ∧ x.opcode? = some o

theorem starts_append {body c : List Item} (hbody : .zero ∉ body) (hc : Starts c) :
    Starts (body ++ c) := by
  induction body with
  | nil => exact hc
  | cons x body ih =>
    rw [List.mem_cons, not_or] at hbody
    cases x with
    | note | label l =>
      obtain ⟨a, y, b, o, hsplit, ha, hy⟩ := ih hbody.2
      refine ⟨_ :: a, y, b, o, congrArg (List.cons _) hsplit, ?_, hy⟩
      rw [size_cons, ha]
      rfl
    | zero => exact absurd rfl hbody.1
    | op o | opWord o w => exact ⟨[], _, body ++ c, o, rfl, rfl, rfl⟩

/-- an instruction comes after the label `l` of `code`, whatever comes after `code` -/
def StartsAt (l : String) (code : List Item) : Prop :=
  ∃ a b, code = a ++ .label l :: b ∧ ∀ c, Starts (b ++ c)

section StartsAt

variable {l : String} {code : List Item}

theorem StartsAt.prepend (h : StartsAt l code) (a : List Item) : StartsAt l (a ++ code) := by
  obtain ⟨b, c, rfl, hc⟩ := h
  exact ⟨a ++ b, c, by rw [List.append_assoc], hc⟩

theorem StartsAt.extend (h : StartsAt l code) (rest : List Item) : StartsAt l (code ++ rest) := by
  obtain ⟨a, b, rfl, hb⟩ := h
  refine ⟨a, b ++ rest, by simp, fun c => ?_⟩
  rw [List.append_assoc]
  exact hb (rest ++ c)

/-- labels of a part stand before instructions, at the latest before its last one -/
theorem startsAt_part {label : String} {body : List Item} {o : Opcode} (hbody : .zero ∉ body)
    (h : .label l ∈ .label label :: body) : StartsAt l (.label label :: (body ++ [.op o])) := by
  obtain ⟨a, b, hsplit⟩ := List.append_of_mem h
  refine ⟨a, b ++ [.op o], ?_, fun c => ?_⟩
  · rw [← List.cons_append, hsplit, List.append_assoc]
    rfl
  · have hb : .zero ∉ b := by
      intro hz
      have hmem : Item.zero ∈ Item.label label :: body := by simp [hsplit, hz]
      exact hbody ((List.mem_cons.1 hmem).resolve_left nofun)
    rw [List.append_assoc]
    exact starts_append hb ⟨[], .op o, c, o, rfl, rfl, rfl⟩

theorem StartsAt.instruction {text : String} {xs : List Item} (h : StartsAt l xs)
    (hlines : asmLines text.toList = xs.map Item.line) (hres : Resolved xs) :
    ∃ (n : Nat) (o : Opcode), operand xs l = .int n ∧ InstructionAt text n o := by
  obtain ⟨a, b, hxs, hb⟩ := h
  obtain ⟨a', x, b', o, hsplit, hsize, hx⟩ := hb []
  rw [List.append_nil] at hsplit
  have hxs' : xs = (a ++ .label l :: a') ++ x :: b' := by
    rw [hxs, hsplit, List.append_assoc, List.cons_append]
  have hplace := instructionAt hlines hxs' hx
  rw [size_append, size_cons, hsize] at hplace
  exact ⟨size a, o, hres.operand_eq hxs, hplace⟩

end StartsAt

end Pl0Kit.Machine

namespace Pl0Kit.Generator

open Machine

variable {fs : Frames} {n m : Nat} {f f' : Frame} {es : List Event} {p : Program}

/-! ## jumps -/

theorem StatementCode.no_cells {s : Statement} (h : StatementCode assembly fs n s m es)
    (l : String) : .cell l ∉ es := by
  intro hl
  have hmem := mem_cellsOf.2 hl
  rw [h.cellsOf_eq] at hmem
  cases hmem

theorem zero_not_mem (h : ∀ l, .cell l ∉ es) : .zero ∉ itemsOf es := by
  intro hz
  obtain ⟨e, he, hz⟩ := List.mem_flatMap.1 hz
  cases e with
  | cell l => exact h l he
  | _ => simp [Event.items] at hz

theorem ProcsCode.startsAt {procs : List (String × Block)}
    (h : ProcsCode assembly fs n f procs m f' es) :
    ∀ l ∈ targetsOf es, StartsAt l (itemsOf es) := by
  induction h with
  | nil => exact nofun
  | cons _ _ hs _ ih =>
    intro l hl
    rw [targetsOf_procedure, targetsOf_eq hs.no_cells, ← List.cons_append] at hl
    rw [itemsOf_procedure]
    refine StartsAt.prepend ?_ _
    rcases List.mem_append.1 hl with hl | hl
    · exact (startsAt_part (zero_not_mem hs.no_cells) (label_mem_part hl)).extend _
    · exact (ih l hl).prepend _

/-- **Labels that control can come to stand before instructions.** -/
theorem ProgramCode.startsAt (h : ProgramCode assembly p m f es) :
    ∀ l ∈ targetsOf es, StartsAt l (itemsOf es) := by
  cases h with
  | mk hprocs hs =>
    intro l hl
    rw [targetsOf_program, targetsOf_eq hs.no_cells] at hl
    rw [itemsOf_program, ← List.cons_append]
    refine StartsAt.prepend ?_ _
    rcases List.mem_append.1 hl with hl | hl
    · exact (hprocs.startsAt l hl).extend _
    · exact (startsAt_part (zero_not_mem hs.no_cells) (label_mem_part hl)).prepend _

/-! ## listings of programs -/

theorem Event.hasOperand {D P : String → Prop} {e : Event} (h : e.Sound D P ∨ e.Border) {o : Opcode}
    (hx : .op o ∈ e.items) : o.hasOperand = false := by
  cases e with
  | compare w =>
    obtain rfl := Item.op.inj (List.mem_singleton.1 hx)
    obtain ⟨op, rfl⟩ := h.resolve_right id
    cases op <;> decide +kernel
  | mul | div | add | sub | procClose _ | mainClose =>
    obtain rfl := Item.op.inj (List.mem_singleton.1 hx)
    rfl
  | negate =>
    have ho : o = .mul := by simpa [Event.items] using hx
    rw [ho]
    rfl
  | print =>
    have ho : o = .print ∨ o = .pop := by simpa [Event.items] using hx
    rcases ho with rfl | rfl <;> rfl
  | _ => simp [Event.items] at hx

theorem ProgramCode.complete (h : ProgramCode assembly p m f es) : Complete (itemsOf es) := by
  intro o ho
  obtain ⟨e, he, ho⟩ := List.mem_flatMap.1 ho
  exact Event.hasOperand (h.sound (fun _ => id) (fun _ => id) e he) ho

theorem access?_itemsOf (es : List Event) :
    (itemsOf es).filterMap Item.access? = accessesOf es := by
  induction es with
  | nil => rfl
  | cons e es ih =>
    rw [itemsOf_cons, List.filterMap_append, ih]
    cases e <;> rfl

/-- the place of a cell, if a line is one -/
abbrev cellPlace? (l : Nat × AsmLine) : Option Nat :=
  if l.2 = .words [['0']] then some l.1 else none

theorem cellPlace?_items {xs : List Item} (h : .zero ∉ xs) (n : Nat) :
    (placedLines n (xs.map Item.line)).filterMap cellPlace? = [] := by
  induction xs generalizing n with
  | nil => rfl
  | cons x xs ih =>
    rw [List.mem_cons, not_or] at h
    have hx : cellPlace? (n, x.line) = none := if_neg fun hz => h.1 (line_eq_zero hz).symm
    rw [List.map_cons, placedLines, List.filterMap_cons_none hx]
    exact ih h.2 _

/-- the label `l` is at the cell of storage `n` and stands for it -/
def PlacedAt (xs : List Item) (l : String) (n : Nat) : Prop :=
  DataAt xs n ∧ (assembled xs).place? l = some n ∧ operand xs l = .int n

/-- the labels of cells stand for the places of cells -/
theorem cellsIn_places {text : String} (hlines : asmLines text.toList = (itemsOf es).map Item.line)
    (hres : Resolved (itemsOf es)) :
    List.Forall₂ (PlacedAt (itemsOf es)) (cellsOf es) (cellsIn text) := by
  suffices hall : ∀ ds pre, itemsOf es = pre ++ itemsOf ds →
      List.Forall₂ (PlacedAt (itemsOf es)) (cellsOf ds)
        ((placedLines (size pre) ((itemsOf ds).map Item.line)).filterMap cellPlace?) by
    rw [cellsIn, linesOf, hlines]
    exact hall es [] rfl
  intro ds
  induction ds with
  | nil => exact fun _ _ => .nil
  | cons d ds ih =>
    intro pre hes
    rw [itemsOf_cons] at hes ⊢
    have hrest := ih (pre ++ d.items) (by rw [hes, List.append_assoc])
    rw [placedLines_append, List.filterMap_append, ← size_append]
    cases d with
    | cell l => exact .cons ⟨⟨pre, l, _, hes, rfl⟩, hres.place?_eq hes, hres.operand_eq hes⟩ hrest
    | _ =>
      rw [cellPlace?_items (by simp [Event.items])]
      exact hrest

theorem forall₂_comp {α β γ : Type} {R : α → β → Prop} {S : β → γ → Prop} {as : List α}
    {bs : List β} {cs : List γ} (h : List.Forall₂ R as bs) (h' : List.Forall₂ S bs cs) :
    List.Forall₂ (Relation.Comp R S) as cs := by
  induction h generalizing cs with
  | nil =>
    cases h'
    exact .nil
  | cons hab _ ih =>
    cases h' with
    | cons hbc hrest => exact .cons ⟨_, hab, hbc⟩ (ih hrest)

theorem forall₂_getElem? {α β : Type} {R : α → β → Prop} {as : List α} {bs : List β}
    {i : Nat} {a : α} (h : List.Forall₂ R as bs) (ha : as[i]? = some a) :
    ∃ b, bs[i]? = some b ∧ R a b := by
  obtain ⟨hi, rfl⟩ := List.getElem?_eq_some_iff.1 ha
  have hi' : i < bs.length := h.length_eq ▸ hi
  exact ⟨bs[i], List.getElem?_eq_getElem hi', h.get hi hi'⟩

theorem ProgramCode.namesResolve (h : ProgramCode assembly p m f es) (hp : p.Shaped) {text : String}
    (hlines : asmLines text.toList = (itemsOf es).map Item.line) : NamesResolve p text := by
  have hres := h.resolved hp
  have hcells := cellsIn_places hlines hres
  have hlabels := labelsIn_eq hlines
  refine ⟨?_, ?_, ?_, ?_, ?_, nodup_cellsIn text, ?_, ?_⟩
  · rw [hlabels]
    exact hres.nodup
  · intro n w v hmem hw
    obtain ⟨pre, x, c, hxs, hx⟩ := mem_linesOf hlines hmem
    cases x with
    | opWord o u =>
      cases hx
      rw [hlabels, String.ofList_toList]
      exact hres.word o u (by simp [hxs]) fun ho => hw (by rw [ho])
    | note | label _ | zero | op _ => cases hx
  · rw [assemble_eq hlines]
    exact h.integers hp
  · intro l hl o ho hjump
    have hop : o.hasOperand = true := by rcases hjump with rfl | rfl | rfl <;> rfl
    obtain ⟨w, hw, hcell⟩ := h.complete.operand hlines hl ho hop
    have hword := h.wordFor h.jumps_targets hw
    have htarget : w ∈ targetsOf es := by
      rcases hjump with rfl | rfl | rfl
      · exact hword
      · exact hword
      · exact List.mem_flatMap.2 ⟨_, hword, List.mem_cons_self⟩
    obtain ⟨n, o', hn, hinstr⟩ := (h.startsAt w htarget).instruction hlines hres
    exact ⟨n, o', by rw [hcell, hn], hinstr⟩
  · refine (forall₂_comp h.declarations hcells).imp ?_
    rintro x n ⟨l, ⟨k, rfl⟩, -, hplace, -⟩
    exact ⟨k, by rw [labelPlace?_eq hlines, hplace]⟩
  · exact fun l hl ho i hi => cellsIn_apart hlines hl ho hi
  · rw [accessesIn_eq hlines h.complete, access?_itemsOf, List.forall₂_map_right_iff]
    refine h.accesses.imp fun a b hab => ⟨hab.1, ?_⟩
    obtain ⟨n, hn, -, -, hoperand⟩ := forall₂_getElem? hcells hab.2
    exact ⟨n, hn, congrArg some hoperand⟩

end Pl0Kit.Generator

namespace Pl0Kit

open Machine Generator

/-- **Names in compiled code resolve.**  In the text that a parsed program compiles to, labels are
defined once, all words stand for integers, jumps and calls go to instructions, and loads and saves
go to the cells of the variables that the program means. -/
theorem compiled_names_resolve {source text : String} {p : Program} {f : Frame} {r : Value}
    {g : Gen} (hparse : (parseText source).1 = .ok p)
    (hcompile : translate assembly p.toValue {} = (.ok (f, r), text, g)) : NamesResolve p text := by
  have hshaped := shaped_of_parse hparse
  obtain ⟨es, hcode, rfl⟩ := program_emits hcompile
  exact hcode.namesResolve hshaped (asmLines_program hcode hshaped)

/-- the variable `x` is declared twice in the program and again in the procedure -/
def shadowed : Program :=
  ⟨.mk none (some ["x", "y", "x"])
    [("p", .mk none (some ["x"]) [] (.assign "x" (.mk none (.mk (.name "y") []) [])))]
    (.assign "x" (.mk none (.mk (.name "x") [(.divide, .name "y")]) []))⟩

theorem shadowed_parses :
    (parseText "var x, y, x; procedure p; var x; x := y; x := x / y.").1 = .ok shadowed := by
  with_unfolding_all rfl

def shadowedText : String :=
  "JMP main\nt_var_x_1:\n    0\nt_var_y_2:\n    0\nt_var_x_3:\n    0\n" ++
    "# Procedure p\nt_var_x_5:\n    0\nt_proc_p_4:\n\tLOAD t_var_y_2\n\tSAVE t_var_x_5\n\tRET\n" ++
    "main:\n\tLOAD t_var_x_3\n\tLOAD t_var_y_2\n\tSAVE t_var_x_3\n\tHALT\n"

def shadowedFrame : Frame where
  vars := [(.str "x", .str "t_var_x_3"), (.str "y", .str "t_var_y_2")]
  procs := [(.str "p", .str "t_proc_p_4")]

set_option maxRecDepth 2000 in
theorem shadowed_compiles : translate assembly shadowed.toValue {} =
    (.ok (shadowedFrame, .none), shadowedText, { labels := 5 }) := by
  with_unfolding_all rfl

/-- the procedure means its own `x` and the main part the second one of the program -/
theorem shadowed_names_resolve :
    shadowed.accesses = [(.load, 1), (.save, 3), (.load, 2), (.load, 1), (.save, 2)] ∧
      NamesResolve shadowed shadowedText :=
  ⟨rfl, compiled_names_resolve shadowed_parses shadowed_compiles⟩

end Pl0Kit
