import Mathlib.Data.List.Forall2
import Pl0Kit.Proofs.Resolved

/-!
# Names of labels

What a label is called does not matter to the assembled code, as long as labels can be told apart.
`Item.Alike` relates items that differ at most in the names of labels with the same serial number,
and `code_alike` shows that two listings of such items stand for the same code.

* `Resolved xs`   labels of `xs` are unique, also by number, and each operand is a numeral or one of
                  them;
* `ProgramCode.resolved`   the listing of a program is resolved.
-/

namespace Pl0Kit.Machine

open Generator

/-! ## listings whose words are known -/

/-- labels are told apart by their numbers, and operands are numerals or labels -/
structure Resolved (xs : List Item) : Prop where
  nodup : (labelsOf xs).Nodup
  apart : ∀ l ∈ labelsOf xs, ∀ k ∈ labelsOf xs, SameNumber l k → l = k
  label : ∀ l ∈ labelsOf xs, cellOf l.toList = .str l
  push : ∀ w, .opWord .push w ∈ xs → Numeral w
  word : ∀ o w, .opWord o w ∈ xs → o ≠ .push → w ∈ labelsOf xs

theorem operand_numeral {w : String} (h : Numeral w) (xs ys : List Item) :
    operand xs w = operand ys w := by
  obtain ⟨n, hn⟩ := h
  rw [operand_of_cellOf hn, operand_of_cellOf hn]

theorem Resolved.place?_eq {xs pre c : List Item} {l : String} (h : Resolved xs)
    (hxs : xs = pre ++ .label l :: c) : (assembled xs).place? l = some (size pre) := by
  have hnd := h.nodup
  subst hxs
  exact place?_label hnd

/-- a label stands for the size of what is before it -/
theorem Resolved.operand_eq {xs pre c : List Item} {l : String} (h : Resolved xs)
    (hxs : xs = pre ++ .label l :: c) : operand xs l = .int (size pre) := by
  have hmem : l ∈ labelsOf xs := mem_labelsOf.2 (by simp [hxs])
  rw [operand, h.label l hmem, Assembly.resolve, h.place?_eq hxs]

/-! ## listings that differ in the names of labels -/

/-- the same label, or a label with the same number -/
def LabelAlike (l k : String) : Prop := l = k ∨ SameNumber l k

theorem LabelAlike.symm {l k : String} (h : LabelAlike l k) : LabelAlike k l :=
  h.imp Eq.symm SameNumber.symm

theorem LabelAlike.trans {l k j : String} (h : LabelAlike l k) (h' : LabelAlike k j) :
    LabelAlike l j := by
  rcases h with rfl | h
  · exact h'
  rcases h' with rfl | h'
  · exact .inr h
  · exact .inr (h.trans h')

/-- items that differ at most in the name of a label -/
inductive Item.Alike : Item → Item → Prop
  | note : Alike .note .note
  | zero : Alike .zero .zero
  | op (o : Opcode) : Alike (.op o) (.op o)
  | push (w : String) : Alike (.opWord .push w) (.opWord .push w)
  | label {l k : String} : LabelAlike l k → Alike (.label l) (.label k)
  | opWord {o : Opcode} {l k : String} : o ≠ .push → LabelAlike l k →
      Alike (.opWord o l) (.opWord o k)

theorem Item.Alike.refl (x : Item) : x.Alike x := by
  cases x with
  | note => exact .note
  | zero => exact .zero
  | op o => exact .op o
  | label l => exact .label (.inl rfl)
  | opWord o w =>
    by_cases ho : o = .push
    · subst ho
      exact .push w
    · exact .opWord ho (.inl rfl)

variable {xs ys : List Item}

theorem size_alike (h : List.Forall₂ Item.Alike xs ys) : size xs = size ys := by
  induction h with
  | nil => rfl
  | cons hxy _ ih =>
    have hsize : ∀ {x y : Item}, x.Alike y → x.size = y.size := by
      rintro _ _ (_ | _ | _ | _ | _ | _) <;> rfl
    rw [size_cons, size_cons, hsize hxy, ih]

theorem forall₂_split {α β : Type} {R : α → β → Prop} {pre c : List α} {x : α} {bs : List β}
    (h : List.Forall₂ R (pre ++ x :: c) bs) :
    ∃ pre' y c', bs = pre' ++ y :: c' ∧ List.Forall₂ R pre pre' ∧ R x y := by
  induction pre generalizing bs with
  | nil =>
    obtain ⟨y, c', hxy, -, rfl⟩ := List.forall₂_cons_left_iff.1 h
    exact ⟨[], y, c', rfl, .nil, hxy⟩
  | cons a pre ih =>
    obtain ⟨b, bs', hab, hrest, rfl⟩ := List.forall₂_cons_left_iff.1 h
    obtain ⟨pre', y, c', rfl, hpre, hxy⟩ := ih hrest
    exact ⟨b :: pre', y, c', rfl, .cons hab hpre, hxy⟩

/-- labels that are alike stand for the same place -/
theorem operand_alike (hx : Resolved xs) (hy : Resolved ys) (h : List.Forall₂ Item.Alike xs ys)
    {l k : String} (hl : l ∈ labelsOf xs) (hk : k ∈ labelsOf ys) (hlk : LabelAlike l k) :
    operand xs l = operand ys k := by
  obtain ⟨pre, c, hxs⟩ := List.append_of_mem (mem_labelsOf.1 hl)
  obtain ⟨pre', y, c', hys, hpre, hlabel⟩ := forall₂_split (hxs ▸ h)
  cases hlabel with
  | @label _ j hlj =>
    -- the label at this place of `ys` is `k`, since it has the number of `k`
    have hj : j ∈ labelsOf ys := mem_labelsOf.2 (by simp [hys])
    have hjk : j = k := (hlj.symm.trans hlk).elim id (hy.apart j hj k hk)
    subst hjk
    rw [hx.operand_eq hxs, hy.operand_eq hys, size_alike hpre]

theorem flatMap_congr₂ {α β γ : Type} {R : α → β → Prop} {as : List α} {bs : List β}
    {f : α → List γ} {g : β → List γ} (h : List.Forall₂ R as bs)
    (hfg : ∀ a ∈ as, ∀ b ∈ bs, R a b → f a = g b) : as.flatMap f = bs.flatMap g := by
  induction h with
  | nil => rfl
  | cons hab _ ih =>
    have hrest := ih fun a ha b hb =>
      hfg a (List.mem_cons_of_mem _ ha) b (List.mem_cons_of_mem _ hb)
    rw [List.flatMap_cons, List.flatMap_cons, hrest,
      hfg _ List.mem_cons_self _ List.mem_cons_self hab]

/-- **The names of labels do not matter to the code.** -/
theorem code_alike (hx : Resolved xs) (hy : Resolved ys) (h : List.Forall₂ Item.Alike xs ys) :
    code xs = code ys := by
  have hcode : ∀ zs, code zs = zs.flatMap fun z => z.cells.map (assembled zs).resolve := by
    intro zs
    rw [code, Assembly.code, ← List.map_flatMap]
    rfl
  rw [hcode xs, hcode ys]
  refine flatMap_congr₂ h fun x hmem y hmem' hxy => ?_
  cases hxy with
  | note | zero | op o | label _ => rfl
  | push w =>
    have hw := operand_numeral (hx.push w hmem) xs ys
    exact congrArg (fun v => [Value.int _, v]) hw
  | @opWord o l k ho hlk =>
    have hw := operand_alike hx hy h (hx.word o l hmem ho) (hy.word o k hmem' ho) hlk
    exact congrArg (fun v => [Value.int _, v]) hw

end Pl0Kit.Machine

namespace Pl0Kit.Generator

open Machine

/-! ## listings of programs -/

variable {p : Program} {m : Nat} {f : Frame} {es : List Event}

theorem ProgramCode.resolved (h : ProgramCode assembly p m f es) (hp : p.Shaped) :
    Resolved (itemsOf es) where
  nodup := h.nodup_labelsOf
  apart := by
    rw [labelsOf_itemsOf]
    exact fun l hl k hk => h.eq_of_sameNumber hl hk
  label := by
    rw [labelsOf_itemsOf]
    exact h.cellOf_placed hp
  push _ hw := (h.push_or_placed hw).elim And.right fun hne => absurd rfl hne.1
  word o w hw ho := by
    rw [labelsOf_itemsOf]
    exact ((h.push_or_placed hw).resolve_left fun hpush => ho hpush.1).2

end Pl0Kit.Generator
