import Pl0Kit.Proofs.Scopes
import Pl0Kit.Proofs.Stepping

/-!
# Operands

What the operands of generated instructions stand for: numerals for their numbers, labels for the
place right after them.  A label that carries a serial number is neither a numeral nor the name of
an instruction, so it stays a label until places are put in.

* `WordFor`   which words an instruction may have as its operand;
* `ProgramCode.integers`   the assembled code of a program holds integers only.
-/

namespace Pl0Kit.Machine

open Generator

variable {xs pre c : List Item}

/-! ## numerals -/

/-- a word that is read as an integer -/
def Numeral (w : String) : Prop := ∃ n : Int, cellOf w.toList = .int n

theorem cellOf_intText (n : Nat) : cellOf (Text.intText n).toList = .int n := by
  rw [cellOf, Text.toList_intText, Text.readInt?_toDigits]

theorem cellOf_minusOne : cellOf "-1".toList = .int (-1) := by
  have hread : Text.readInt? "-1".toList = some (-1) := by decide
  rw [cellOf, hread]

theorem operand_of_cellOf {w : String} {n : Int} (h : cellOf w.toList = .int n) (xs : List Item) :
    operand xs w = .int n := by
  rw [operand, h]
  rfl

theorem operand_intText (xs : List Item) (n : Nat) : operand xs (Text.intText n) = .int n :=
  operand_of_cellOf (cellOf_intText n) xs

theorem operand_minusOne (xs : List Item) : operand xs "-1" = .int (-1) :=
  operand_of_cellOf cellOf_minusOne xs

/-! ## labels -/

theorem readDigits_letter {cs : List Char} (n : Nat) : Text.readDigits n ('t' :: cs) = none := by
  have ht : Text.digitValue? 't' = none := by decide
  rw [Text.readDigits, ht]

theorem readNat?_letter (cs : List Char) : Text.readNat? ('t' :: '_' :: cs) = none := by
  have hjoin : ∃ ds, Text.joinDigitGroups ('t' :: '_' :: cs) = 't' :: ds := by
    have ht : Text.isDigit 't' = false := by decide
    cases cs with
    | nil => exact ⟨_, rfl⟩
    | cons c cs =>
      rw [Text.joinDigitGroups, ht, Bool.false_and, if_neg Bool.false_ne_true]
      exact ⟨_, rfl⟩
  obtain ⟨ds, hds⟩ := hjoin
  rw [Text.readNat?, hds]
  exact readDigits_letter 0

theorem name_head (o : Opcode) : o.name.toList.head? ≠ some 't' := by
  cases o <;> decide

theorem ofName?_letter {s : String} (h : s.toList.head? = some 't') : Opcode.ofName? s = none := by
  rw [Opcode.ofName?, List.find?_eq_none]
  intro o _ ho
  rw [beq_iff_eq] at ho
  exact name_head o (ho ▸ h)

theorem cellOf_serialLabel {hint : String} {n : Nat} (h : Plain (serialLabel hint n).toList) :
    cellOf (serialLabel hint n).toList = .str (serialLabel hint n) := by
  have hread : Text.readInt? (serialLabel hint n).toList = none := by
    rw [Text.readInt?, Text.trim_eq fun c hc => (h.2 c hc).1, toList_serialLabel]
    split
    · rename_i he
      exact absurd (List.cons.inj he).1 (by decide)
    · rename_i he
      exact absurd (List.cons.inj he).1 (by decide)
    · rw [readNat?_letter]
      rfl
  have hname : Opcode.ofName? (serialLabel hint n) = none := by
    refine ofName?_letter ?_
    rw [toList_serialLabel]
    rfl
  rw [cellOf, hread, String.ofList_toList, hname]

theorem cellOf_main : cellOf "main".toList = .str "main" := by
  have hread : Text.readInt? "main".toList = none := by decide
  have hname : Opcode.ofName? "main" = none := by decide
  rw [cellOf, hread, String.ofList_toList, hname]

/-- a label stands for the place after it -/
theorem operand_label {l : String} (hnd : (labelsOf xs).Nodup) (hl : cellOf l.toList = .str l)
    (hxs : xs = pre ++ .label l :: c) : operand xs l = .int (address xs c) := by
  have hplace : (assembled xs).place? l = some (size pre) := by
    subst hxs
    exact place?_label hnd
  have haddress : address xs c = size pre := by
    rw [address, hxs, size_append, size_cons, Item.size]
    omega
  rw [operand, hl, Assembly.resolve, hplace, haddress]

/-- the label of a cell of storage stands for the place of the cell -/
theorem operand_data {l : String} (hnd : (labelsOf xs).Nodup) (hl : cellOf l.toList = .str l)
    (hxs : xs = pre ++ .label l :: .zero :: c) :
    operand xs l = .int (size pre) ∧ DataAt xs (size pre) := by
  obtain ⟨hxs', hsize⟩ := after_label hxs
  refine ⟨?_, pre, l, c, hxs, rfl⟩
  rw [operand_label hnd hl hxs, address_eq hxs', hsize]

/-! ## labels and the end of a program -/

theorem labelsOf_itemsOf (es : List Event) : labelsOf (itemsOf es) = placedBy es := by
  induction es with
  | nil => rfl
  | cons e es ih =>
    rw [itemsOf_cons, placedBy_cons, labelsOf, List.flatMap_append, ← labelsOf, ← labelsOf, ih]
    congr 1
    cases e <;> rfl

theorem mem_labelsOf {xs : List Item} {l : String} : l ∈ labelsOf xs ↔ .label l ∈ xs := by
  rw [labelsOf, List.mem_flatMap]
  constructor
  · rintro ⟨x, hx, hl⟩
    cases x with
    | label l' =>
      obtain rfl := List.mem_singleton.1 hl
      exact hx
    | note | zero | op _ | opWord _ _ => cases hl
  · intro h
    exact ⟨.label l, h, List.mem_cons_self⟩

/-- code that ends in a halt: what is left after any other instruction has a size -/
theorem size_pos_of_halt (hend : xs.getLast? = some (.op .halt)) {x : Item} (hx : x ≠ .op .halt)
    (hxs : xs = pre ++ x :: c) : 0 < size c := by
  have hlast : (x :: c).getLast? = some (.op .halt) := by
    rw [hxs, List.getLast?_append] at hend
    simpa using hend
  cases c with
  | nil => exact absurd (Option.some.inj hlast) hx
  | cons y c =>
    have hmem : Item.op .halt ∈ y :: c := by
      rw [List.getLast?_cons_cons] at hlast
      exact List.mem_of_getLast? hlast
    obtain ⟨a, b, hab⟩ := List.append_of_mem hmem
    rw [hab, size_append, size_cons, Item.size]
    omega

end Pl0Kit.Machine

namespace Pl0Kit.Generator

open Machine

/-! ## labels of a program -/

variable {p : Program} {m : Nat} {f : Frame} {es : List Event}

theorem Event.Plain.placed {e : Event} (h : e.Plain) : ∀ l ∈ e.placed, Machine.Plain l.toList := by
  cases e with
  | cell _ | procOpen _ | join _ | loopOpen _ _ => exact List.forall_mem_singleton.2 h
  | loopClose _ _ => exact List.forall_mem_singleton.2 h.2
  | mainOpen => exact List.forall_mem_singleton.2 plain_main
  | _ => exact nofun

/-- labels that a program places stay labels in its cells -/
theorem ProgramCode.cellOf_placed (h : ProgramCode assembly p m f es) (hp : p.Shaped) :
    ∀ l ∈ placedBy es, cellOf l.toList = .str l := by
  intro l hl
  rcases h.serial l hl with rfl | ⟨hint, n, rfl⟩
  · exact cellOf_main
  · obtain ⟨e, he, hmem⟩ := List.mem_flatMap.1 hl
    exact cellOf_serialLabel ((h.plain hp e he).placed _ hmem)

theorem ProgramCode.nodup_labelsOf (h : ProgramCode assembly p m f es) :
    (labelsOf (itemsOf es)).Nodup := by
  rw [labelsOf_itemsOf]
  exact h.nodup

theorem ProgramCode.getLast?_items (h : ProgramCode assembly p m f es) :
    (itemsOf es).getLast? = some (.op .halt) := by
  cases h with
  | @mk k m f consts vars procs body cs ds _ _ =>
    rw [itemsOf_program, List.getLast?_cons, List.getLast?_append, List.getLast?_append,
      List.getLast?_cons, List.getLast?_append]
    rfl

/-- every label of a program stands for the place after it -/
theorem ProgramCode.operand_eq (h : ProgramCode assembly p m f es) (hp : p.Shaped)
    {pre c : List Item} {l : String} (hxs : itemsOf es = pre ++ .label l :: c) :
    operand (itemsOf es) l = .int (address (itemsOf es) c) := by
  have hmem : l ∈ placedBy es := by
    rw [← labelsOf_itemsOf, hxs]
    simp [labelsOf, Item.labels]
  exact operand_label h.nodup_labelsOf (h.cellOf_placed hp l hmem) hxs

theorem items_cell {l : String} (h : .cell l ∈ es) :
    ∃ pre c, itemsOf es = pre ++ .label l :: .zero :: c := by
  obtain ⟨ds, ds', rfl⟩ := List.append_of_mem h
  exact ⟨itemsOf ds, itemsOf ds', by simp [Event.items]⟩

theorem ProgramCode.cellOf_cell (h : ProgramCode assembly p m f es) (hp : p.Shaped) {l : String}
    (hl : .cell l ∈ es) : cellOf l.toList = .str l :=
  h.cellOf_placed hp l (mem_placedBy hl List.mem_cons_self)

/-- every variable of a program has a cell of storage -/
theorem ProgramCode.operand_cell (h : ProgramCode assembly p m f es) (hp : p.Shaped) {l : String}
    (hl : .cell l ∈ es) : ∃ a : Nat, operand (itemsOf es) l = .int a ∧ DataAt (itemsOf es) a := by
  obtain ⟨pre, c, hxs⟩ := items_cell hl
  exact ⟨_, operand_data h.nodup_labelsOf (h.cellOf_cell hp hl) hxs⟩

/-- different variables have different cells -/
theorem ProgramCode.cell_inj (h : ProgramCode assembly p m f es) (hp : p.Shaped) {l l' : String}
    (hl : .cell l ∈ es) (hl' : .cell l' ∈ es)
    (he : operand (itemsOf es) l = operand (itemsOf es) l') : l = l' := by
  obtain ⟨pre, c, hxs⟩ := items_cell hl
  obtain ⟨pre', c', hxs'⟩ := items_cell hl'
  rw [(operand_data h.nodup_labelsOf (h.cellOf_cell hp hl) hxs).1,
    (operand_data h.nodup_labelsOf (h.cellOf_cell hp hl') hxs').1, Value.int.injEq] at he
  obtain ⟨hxs, hsize⟩ := after_label hxs
  obtain ⟨hxs', hsize'⟩ := after_label hxs'
  have hz : Item.zero.size = 1 := rfl
  obtain ⟨hpre, -⟩ := eq_of_overlap (hxs.symm.trans hxs') (by omega) (by omega)
  have hlast := List.append_inj_right' hpre rfl
  exact Item.label.inj (List.cons.inj hlast).1

/-! ## all operands are integers -/

/-- a word that stands for an integer -/
def Known (xs : List Item) (w : String) : Prop := ∃ n : Int, operand xs w = .int n

/-- the operand of an item, if it has one, is known -/
def Resolves (xs : List Item) : Item → Prop
  | .opWord _ w => Known xs w
  | _ => True

theorem mem_code {xs : List Item} (h : ∀ x ∈ xs, Resolves xs x) :
    ∀ v ∈ code xs, ∃ n : Int, v = .int n := by
  intro v hv
  obtain ⟨w, hw, rfl⟩ := List.mem_map.1 hv
  obtain ⟨x, hx, hw⟩ := List.mem_flatMap.1 hw
  cases x with
  | note | label _ => cases hw
  | zero | op _ =>
    obtain rfl := List.mem_singleton.1 hw
    exact ⟨_, rfl⟩
  | opWord o t =>
    rcases List.mem_cons.1 hw with rfl | hw
    · exact ⟨_, rfl⟩
    · obtain rfl := List.mem_singleton.1 hw
      exact h _ hx

/-- the operand of an instruction: a numeral, storage of `D`, a procedure of `P` or a place of
`J` -/
def WordFor (D P J : String → Prop) : Opcode → String → Prop
  | .push, w => Numeral w
  | .load, w | .save, w => D w
  | .call, w => P w
  | .jmp, w | .je, w => J w
  | _, _ => False

theorem Event.wordFor {D P : String → Prop} {e : Event} (h : e.Sound D P ∨ e.Border) {o : Opcode}
    {w : String} (hx : .opWord o w ∈ e.items) : WordFor D P (· ∈ e.jumps) o w := by
  cases e with
  | load l | save l | call l =>
    obtain ⟨rfl, rfl⟩ := Item.opWord.inj (List.mem_singleton.1 hx)
    exact h.resolve_right id
  | number t | constant t =>
    obtain ⟨rfl, rfl⟩ := Item.opWord.inj (List.mem_singleton.1 hx)
    obtain ⟨n, rfl⟩ := h.resolve_right id
    exact ⟨n, cellOf_intText n⟩
  | negate =>
    have hw : o = .push ∧ w = "-1" := by simpa [Event.items] using hx
    obtain ⟨rfl, rfl⟩ := hw
    exact ⟨-1, cellOf_minusOne⟩
  | start | branch l | loopExit _ l =>
    obtain ⟨rfl, rfl⟩ := Item.opWord.inj (List.mem_singleton.1 hx)
    exact List.mem_cons_self
  | loopClose top bottom =>
    have hw : o = .jmp ∧ w = top := by simpa [Event.items] using hx
    obtain ⟨rfl, rfl⟩ := hw
    exact List.mem_cons_self
  | _ => simp [Event.items] at hx

/-- operands in the listing of a program, whose jumps go to labels of `ls` -/
theorem ProgramCode.wordFor (h : ProgramCode assembly p m f es) {ls : List String}
    (hjumps : JumpsIn ls es) {o : Opcode} {w : String} (hx : .opWord o w ∈ itemsOf es) :
    WordFor (.cell · ∈ es) (.procOpen · ∈ es) (· ∈ ls) o w := by
  obtain ⟨e, he, hx⟩ := List.mem_flatMap.1 hx
  have hword := Event.wordFor (h.sound (fun _ => id) (fun _ => id) e he) hx
  cases o with
  | jmp | je => exact hjumps e he w hword
  | _ => exact hword

/-- numbers are pushed, and all other operands are labels of the program -/
theorem ProgramCode.push_or_placed (h : ProgramCode assembly p m f es) {o : Opcode} {w : String}
    (hx : .opWord o w ∈ itemsOf es) : o = .push ∧ Numeral w ∨ o ≠ .push ∧ w ∈ placedBy es := by
  have hword := h.wordFor h.jumps_placed hx
  cases o with
  | push => exact .inl ⟨rfl, hword⟩
  | load | save | call => exact .inr ⟨nofun, mem_placedBy hword List.mem_cons_self⟩
  | jmp | je => exact .inr ⟨nofun, hword⟩
  | _ => exact hword.elim

/-- **The code of a program holds integers only.** -/
theorem ProgramCode.integers (h : ProgramCode assembly p m f es) (hp : p.Shaped) :
    ∀ v ∈ code (itemsOf es), ∃ n : Int, v = .int n := by
  refine mem_code fun x hx => ?_
  cases x with
  | opWord o w =>
    rcases h.push_or_placed hx with ⟨-, n, hn⟩ | ⟨-, hw⟩
    · exact ⟨n, operand_of_cellOf hn _⟩
    · rw [← labelsOf_itemsOf, mem_labelsOf] at hw
      obtain ⟨pre, c, hxs⟩ := List.append_of_mem hw
      exact ⟨_, h.operand_eq hp hxs⟩
  | _ => trivial

end Pl0Kit.Generator
