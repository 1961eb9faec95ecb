import Pl0Kit.Proofs.Listing

/-!
# Assembled code

What the assembler makes of a list of items: the place of each label is the size of the items before
it (`place?_label`), and the cells of each item stand at its place (`getElem?_code`).

* `size xs`          number of cells of some items;
* `code xs`          the assembled cells;
* `operand xs w`     the cell that the word `w` stands for in `xs`;
* `DataAt xs a`      `a` is the place of a cell of storage;
* `Loaded xs mem`    a memory that differs from the code at most in storage, which holds integers.
-/

namespace Pl0Kit.Machine

/-! ## sizes and places -/

namespace Item

def size : Item → Nat
  | note => 0
  | label _ => 0
  | zero => 1
  | op _ => 1
  | opWord _ _ => 2

/-- the cells of an item, with labels not yet put in -/
def cells : Item → List Value
  | note => []
  | label _ => []
  | zero => [.int 0]
  | op o => [.int o.code]
  | opWord o w => [.int o.code, cellOf w.toList]

def labels : Item → List String
  | label l => [l]
  | _ => []

theorem length_cells (x : Item) : x.cells.length = x.size := by
  cases x <;> rfl

end Item

def size : List Item → Nat
  | [] => 0
  | x :: xs => x.size + size xs

@[simp] theorem size_nil : size [] = 0 := rfl

@[simp] theorem size_cons (x : Item) (xs : List Item) : size (x :: xs) = x.size + size xs := rfl

@[simp] theorem size_append (xs ys : List Item) : size (xs ++ ys) = size xs + size ys := by
  induction xs with
  | nil => rw [List.nil_append, size_nil, Nat.zero_add]
  | cons x xs ih => rw [List.cons_append, size_cons, size_cons, ih, Nat.add_assoc]

def labelsOf (xs : List Item) : List String := xs.flatMap Item.labels

theorem length_cells (xs : List Item) : (xs.flatMap Item.cells).length = size xs := by
  induction xs with
  | nil => rfl
  | cons x xs ih => rw [List.flatMap_cons, List.length_append, ih, x.length_cells, size_cons]

/-- the labels of items that start at place `n`, with their places -/
def places (n : Nat) : List Item → List (String × Nat)
  | [] => []
  | x :: xs => x.labels.map (fun l => (l, n)) ++ places (n + x.size) xs

theorem map_places (n : Nat) (xs : List Item) : (places n xs).map Prod.fst = labelsOf xs := by
  induction xs generalizing n with
  | nil => rfl
  | cons x xs ih =>
    rw [places, List.map_append, ih]
    cases x <;> rfl

theorem mem_places (n : Nat) (pre : List Item) (l : String) (c : List Item) :
    (l, n + size pre) ∈ places n (pre ++ .label l :: c) := by
  induction pre generalizing n with
  | nil => exact List.mem_append_left _ List.mem_cons_self
  | cons x pre ih =>
    rw [List.cons_append, places, size_cons, ← Nat.add_assoc]
    exact List.mem_append_right _ (ih (n + x.size))

/-! ## assembling items -/

theorem ofName?_name (o : Opcode) : Opcode.ofName? (String.ofList o.name.toList) = some o := by
  cases o <;> decide +kernel

theorem cellOf_name (o : Opcode) : cellOf o.name.toList = .int o.code := by
  have hread : Text.readInt? o.name.toList = none := by
    cases o <;> decide +kernel
  rw [cellOf, hread, ofName?_name]

theorem addLine_item (a : Assembly) (x : Item) :
    a.addLine x.line =
      ⟨a.cells ++ x.cells, x.labels.map (fun l => (l, a.cells.length)) ++ a.labels⟩ := by
  cases x with
  | note =>
    rw [Item.cells, List.append_nil]
    rfl
  | label l =>
    simp [Item.line, Assembly.addLine, Item.cells, Item.labels]
  | zero => rfl
  | op o =>
    rw [Item.cells, ← cellOf_name]
    rfl
  | opWord o w =>
    rw [Item.cells, ← cellOf_name]
    rfl

/-- the assembly of items: cells in order, labels with the newest first -/
theorem foldl_addLine (xs : List Item) (a : Assembly) :
    (xs.map Item.line).foldl Assembly.addLine a =
      ⟨a.cells ++ xs.flatMap Item.cells, (places a.cells.length xs).reverse ++ a.labels⟩ := by
  induction xs generalizing a with
  | nil =>
    rw [List.flatMap_nil, List.append_nil]
    rfl
  | cons x xs ih =>
    rw [List.map_cons, List.foldl_cons, addLine_item, ih, List.length_append, x.length_cells,
      List.flatMap_cons, List.append_assoc, places, List.reverse_append, List.append_assoc]
    cases x <;> rfl

def assembled (xs : List Item) : Assembly :=
  ⟨xs.flatMap Item.cells, (places 0 xs).reverse⟩

/-- the code that items stand for -/
def code (xs : List Item) : List Value := (assembled xs).code

theorem assemble_eq {s : String} {xs : List Item} (h : asmLines s.toList = xs.map Item.line) :
    assemble s = code xs := by
  show ((asmLines s.toList).foldl Assembly.addLine {}).code = _
  rw [h, foldl_addLine, List.append_nil]
  rfl

theorem length_code (xs : List Item) : (code xs).length = size xs := by
  rw [code, Assembly.code, List.length_map, assembled, length_cells]

theorem find?_of_mem {l : String} {n : Nat} {ps : List (String × Nat)} (h : (l, n) ∈ ps)
    (hnd : (ps.map Prod.fst).Nodup) : ps.find? (fun p => p.1 == l) = some (l, n) := by
  induction ps with
  | nil => cases h
  | cons p ps ih =>
    rw [List.map_cons, List.nodup_cons] at hnd
    rcases List.mem_cons.1 h with rfl | h
    · rw [List.find?_cons_of_pos]
      exact beq_self_eq_true l
    · have hne : p.1 ≠ l := by
        rintro rfl
        exact hnd.1 (List.mem_map.2 ⟨_, h, rfl⟩)
      rw [List.find?_cons_of_neg (by simp [hne]), ih h hnd.2]

/-- the place of a label is the size of what stands before it -/
theorem place?_label {pre c : List Item} {l : String}
    (hnd : (labelsOf (pre ++ .label l :: c)).Nodup) :
    (assembled (pre ++ .label l :: c)).place? l = some (size pre) := by
  have hmem : (l, size pre) ∈ (places 0 (pre ++ .label l :: c)).reverse := by
    have h := mem_places 0 pre l c
    rw [Nat.zero_add] at h
    exact List.mem_reverse.2 h
  have hkeys : ((places 0 (pre ++ .label l :: c)).reverse.map Prod.fst).Nodup := by
    rw [List.map_reverse, map_places]
    exact (List.reverse_perm _).nodup_iff.2 hnd
  rw [Assembly.place?, assembled, find?_of_mem hmem hkeys]
  rfl

/-- the cell that a word stands for -/
def operand (xs : List Item) (w : String) : Value := (assembled xs).resolve (cellOf w.toList)

/-- the cells of an item stand at its place -/
theorem getElem?_code (pre : List Item) (x : Item) (c : List Item) {i : Nat} (hi : i < x.size) :
    (code (pre ++ x :: c))[size pre + i]? =
      (x.cells.map (assembled (pre ++ x :: c)).resolve)[i]? := by
  rw [code, Assembly.code, List.getElem?_map, List.getElem?_map]
  congr 1
  rw [assembled, List.flatMap_append, List.flatMap_cons]
  have hle : (pre.flatMap Item.cells).length ≤ size pre + i := by
    rw [length_cells]
    omega
  have hlt : i < x.cells.length := by
    rw [x.length_cells]
    exact hi
  rw [List.getElem?_append_right hle, length_cells, Nat.add_sub_cancel_left,
    List.getElem?_append_left hlt]

/-! ## storage -/

/-- a place of storage, which has a label -/
def DataAt (xs : List Item) (a : Nat) : Prop :=
  ∃ pre l c, xs = pre ++ .label l :: .zero :: c ∧ a = size pre

/-- the cell behind a label -/
theorem after_label {xs pre c : List Item} {l : String} (hxs : xs = pre ++ .label l :: c) :
    xs = (pre ++ [.label l]) ++ c ∧ size (pre ++ [.label l]) = size pre := by
  refine ⟨?_, by simp [Item.size]⟩
  rw [hxs, List.append_assoc]
  rfl

/-- items that stand at overlapping places are the same item -/
theorem eq_of_overlap {pre pre' c c' : List Item} {x y : Item} (h : pre ++ x :: c = pre' ++ y :: c')
    (hlt : size pre < size pre' + y.size) (hlt' : size pre' < size pre + x.size) :
    pre = pre' ∧ x = y ∧ c = c' := by
  rcases List.append_eq_append_iff.1 h with ⟨as, h₁, h₂⟩ | ⟨as, h₁, h₂⟩
  · cases as with
    | nil =>
      rw [List.append_nil] at h₁
      cases h₂
      exact ⟨h₁.symm, rfl, rfl⟩
    | cons a as =>
      obtain ⟨rfl, -⟩ := List.cons.inj h₂
      rw [h₁, size_append, size_cons] at hlt'
      omega
  · cases as with
    | nil =>
      rw [List.append_nil] at h₁
      cases h₂
      exact ⟨h₁, rfl, rfl⟩
    | cons a as =>
      obtain ⟨rfl, -⟩ := List.cons.inj h₂
      rw [h₁, size_append, size_cons] at hlt
      omega

/-- cells of an item that is no storage -/
theorem not_dataAt {pre c : List Item} {x : Item} (hx : x ≠ .zero) {i : Nat} (hi : i < x.size) :
    ¬ DataAt (pre ++ x :: c) (size pre + i) := by
  rintro ⟨pre', l, c', h, ha⟩
  have hz : Item.zero.size = 1 := rfl
  obtain ⟨h, hsize⟩ := after_label h
  obtain ⟨-, rfl, -⟩ := eq_of_overlap h (by omega) (by omega)
  exact hx rfl

/-- storage holds zeros at first -/
theorem code_data {xs : List Item} {a : Nat} (h : DataAt xs a) : (code xs)[a]? = some (.int 0) := by
  obtain ⟨pre, l, c, hxs, rfl⟩ := h
  obtain ⟨rfl, hsize⟩ := after_label hxs
  rw [← hsize]
  exact getElem?_code _ .zero c Nat.one_pos

/-- a memory that holds the code, up to the contents of storage -/
structure Loaded (xs : List Item) (mem : List Value) : Prop where
  length : mem.length = size xs
  same : ∀ a, ¬ DataAt xs a → mem[a]? = (code xs)[a]?
  data : ∀ a, DataAt xs a → ∃ n : Int, mem[a]? = some (.int n)

namespace Loaded

variable {xs pre c : List Item} {mem : List Value}

theorem code (xs : List Item) : Loaded xs (Machine.code xs) :=
  ⟨length_code xs, fun _ _ => rfl, fun _ ha => ⟨0, code_data ha⟩⟩

/-- cells of instructions are as they were assembled -/
theorem cell (h : Loaded xs mem) {x : Item} (hxs : xs = pre ++ x :: c) (hx : x ≠ .zero) {i : Nat}
    (hi : i < x.size) : mem[size pre + i]? = (x.cells.map (assembled xs).resolve)[i]? := by
  subst hxs
  rw [h.same _ (not_dataAt hx hi), getElem?_code pre x c hi]

theorem op (h : Loaded xs mem) {o : Opcode} (hxs : xs = pre ++ .op o :: c) :
    mem[size pre]? = some (.int o.code) :=
  h.cell hxs nofun Nat.one_pos

theorem opWord (h : Loaded xs mem) {o : Opcode} {w : String} (hxs : xs = pre ++ .opWord o w :: c) :
    mem[size pre]? = some (.int o.code) ∧ mem[size pre + 1]? = some (operand xs w) :=
  ⟨h.cell hxs nofun Nat.two_pos, h.cell hxs nofun (Nat.lt_succ_self 1)⟩

/-- storing an integer -/
theorem set (h : Loaded xs mem) {a : Nat} (ha : DataAt xs a) (n : Int) :
    Loaded xs (mem.set a (.int n)) := by
  refine ⟨by rw [List.length_set, h.length], fun b hb => ?_, fun b hb => ?_⟩
  · have hne : a ≠ b := fun he => hb (he ▸ ha)
    rw [List.getElem?_set_ne hne, h.same b hb]
  · by_cases he : a = b
    · subst he
      obtain ⟨k, hk⟩ := h.data a ha
      have hlt : a < mem.length := (List.getElem?_eq_some_iff.1 hk).1
      exact ⟨n, List.getElem?_set_self hlt⟩
    · rw [List.getElem?_set_ne he]
      exact h.data b hb

end Loaded

end Pl0Kit.Machine
