import Pl0Kit.Text.Number

/-!
# Decimal numerals read back

The decimal digits of a number are read as that number, by the lexer (`readDigits`) and by the
assembler (`readInt?`, which also trims blanks and joins groups of digits).
-/

namespace Pl0Kit.Text

theorem toNat_of_isDigit {c : Char} (h : c.isDigit = true) : 48 ≤ c.toNat ∧ c.toNat ≤ 57 := by
  simp only [Char.isDigit, Bool.and_eq_true, decide_eq_true_eq] at h
  exact h

theorem isAlpha_iff {c : Char} :
    c.isAlpha = true ↔ 65 ≤ c.toNat ∧ c.toNat ≤ 90 ∨ 97 ≤ c.toNat ∧ c.toNat ≤ 122 := by
  show (decide (65 ≤ c.val ∧ c.val ≤ 90) || decide (97 ≤ c.val) && decide (c.val ≤ 122)) = true ↔ _
  simp only [Bool.or_eq_true, Bool.and_eq_true, decide_eq_true_eq, UInt32.le_iff_toNat_le]
  rfl

theorem isAlpha_of_isDigit {c : Char} (h : c.isDigit = true) : c.isAlpha = false := by
  have hc := toNat_of_isDigit h
  rw [← Bool.not_eq_true, isAlpha_iff]
  omega

theorem digitValue?_of_isDigit {c : Char} (h : c.isDigit = true) :
    digitValue? c = some (c.toNat - '0'.toNat) := by
  have hc := toNat_of_isDigit h
  have hz : (decide (0x30 ≤ c.toNat) && decide (c.toNat ≤ 0x30 + 9)) = true := by
    simp only [Bool.and_eq_true, decide_eq_true_eq]
    exact hc
  rw [digitValue?, digitZeros, List.find?_cons, hz]
  rfl

theorem isDigit_of_isDigit {c : Char} (h : c.isDigit = true) : isDigit c = true := by
  rw [isDigit, digitValue?_of_isDigit h]
  rfl

theorem readDigits_eq {cs : List Char} (h : ∀ c ∈ cs, c.isDigit = true) (acc : Nat) :
    readDigits acc cs = some (Nat.ofDigitChars 10 cs acc) := by
  induction cs generalizing acc with
  | nil => rw [readDigits, Nat.ofDigitChars_nil]
  | cons c cs ih =>
    rw [readDigits, digitValue?_of_isDigit (h c List.mem_cons_self), Nat.ofDigitChars_cons,
      Nat.mul_comm 10 acc]
    exact ih (fun d hd => h d (List.mem_cons_of_mem c hd)) _

theorem isDigit_of_mem_toDigits {n : Nat} {c : Char} (h : c ∈ Nat.toDigits 10 n) :
    c.isDigit = true :=
  Nat.isDigit_of_mem_toDigits (by decide) (by decide) h

theorem readDigits_toDigits (n : Nat) : readDigits 0 (Nat.toDigits 10 n) = some n := by
  rw [readDigits_eq (fun c => isDigit_of_mem_toDigits), Nat.ofDigitChars_ten_toDigits]

theorem toDigits_inj {n m : Nat} (h : Nat.toDigits 10 n = Nat.toDigits 10 m) : n = m := by
  have hr := congrArg (readDigits 0) h
  rw [readDigits_toDigits, readDigits_toDigits] at hr
  exact Option.some.inj hr

/-! ## as words of assembly -/

theorem joinDigitGroups_eq {cs : List Char} (h : '_' ∉ cs) : joinDigitGroups cs = cs := by
  fun_induction joinDigitGroups cs with
  | case1 a b rest _ _ => exact absurd (by simp) h
  | case2 a b rest _ _ => exact absurd (by simp) h
  | case3 a rest _ ih =>
    rw [ih fun hr => h (List.mem_cons_of_mem a hr)]
  | case4 => rfl

theorem readNat?_toDigits (n : Nat) : readNat? (Nat.toDigits 10 n) = some n := by
  rw [readNat?, joinDigitGroups_eq Nat.underscore_not_in_toDigits]
  split
  · rename_i h
    exact absurd h Nat.toDigits_ne_nil
  · exact readDigits_toDigits n

theorem isBlank_of_isDigit {c : Char} (h : c.isDigit = true) : isBlank c = false := by
  have hc := toNat_of_isDigit h
  simp only [isBlank, Bool.or_eq_false_iff, Bool.and_eq_false_iff, decide_eq_false_iff_not]
  omega

/-- trimming leaves a text without blanks as it is -/
theorem trim_eq {cs : List Char} (h : ∀ c ∈ cs, isBlank c = false) : trim cs = cs := by
  have hl : ∀ ds : List Char, (∀ c ∈ ds, isBlank c = false) → ds.dropWhile isBlank = ds := by
    intro ds hds
    cases ds with
    | nil => rfl
    | cons d ds => rw [List.dropWhile_cons_of_neg (by simp [hds d List.mem_cons_self])]
  rw [trim, trimLeft, hl cs h, trimRight, hl cs.reverse fun c hc => h c (List.mem_reverse.1 hc),
    List.reverse_reverse]

theorem readInt?_toDigits (n : Nat) : readInt? (Nat.toDigits 10 n) = some (n : Int) := by
  have hd : ∀ c ∈ Nat.toDigits 10 n, c.isDigit = true := fun c => isDigit_of_mem_toDigits
  rw [readInt?, trim_eq fun c hc => isBlank_of_isDigit (hd c hc)]
  split
  · rename_i ds h
    exact absurd (hd '-' (by rw [h]; exact List.mem_cons_self)) (by decide)
  · rename_i ds h
    exact absurd (hd '+' (by rw [h]; exact List.mem_cons_self)) (by decide)
  · rw [readNat?_toDigits]
    rfl

theorem toList_intText (n : Nat) : (intText n).toList = Nat.toDigits 10 n := by
  show (Nat.repr n).toList = _
  exact Nat.toList_repr

end Pl0Kit.Text
