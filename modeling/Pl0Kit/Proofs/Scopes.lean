import Pl0Kit.Proofs.Listing
import Pl0Kit.Proofs.Shape
import Pl0Kit.Proofs.Tables

/-!
# Names in scope

While code is generated, frames hold numbers for constants and labels for variables and procedures.
`Scoped D P f` says that the labels of variables in the frame `f` satisfy `D` and those of
procedures `P`; then every event of a statement in this scope is `Sound`: it loads and saves at
labels of `D` and calls labels of `P`.  Since names are identifiers, labels are plain words, and a
program's text is read back as its items (`asmLines_program`).
-/

namespace Pl0Kit.Generator

open Machine

/-! ## events of statements -/

/-- a label of letters, digits and underscores with a serial number -/
def Serial (l : String) : Prop :=
  ∃ hint n, (∀ c ∈ hint.toList, Lexeme.isNameChar c = true) ∧ l = serialLabel hint n

/-- an event of a statement: it uses storage in `D` and procedures in `P` -/
def Event.Sound (D P : String → Prop) : Event → Prop
  | .load l | .save l => D l
  | .call l => P l
  | .number t | .constant t => ∃ n : Nat, t = Text.intText n
  | .compare w => ∃ op : RelOp, w = op.word
  | .branch l | .join l => Serial l
  | .loopOpen top bottom | .loopExit top bottom | .loopClose top bottom =>
    Serial top ∧ Serial bottom
  | .mul | .add | .sub | .negate | .print => True
  | _ => False

theorem Serial.ofHint {hint : String} (h : hint.toList.all Lexeme.isNameChar = true) (n : Nat) :
    Serial (serialLabel hint n) := ⟨hint, n, List.all_eq_true.1 h, rfl⟩

section Sound

variable {D P : String → Prop} {fs : Frames}

theorem sound_sign (sign : Option AddOp) : ∀ ev ∈ signEvents sign, ev.Sound D P := by
  intro ev hev
  rcases sign with _ | _ | _
  · cases hev
  · cases hev
  · obtain rfl := List.mem_singleton.1 hev
    trivial

theorem sound_mul (op : MulOp) : ∀ ev ∈ mulEvents op, ev.Sound D P := by
  intro ev hev
  cases op with
  | times =>
    obtain rfl := List.mem_singleton.1 hev
    trivial
  | divide => cases hev

theorem sound_name (hfs : ∀ f ∈ fs, Scoped D P f) {x : String} {es : List Event}
    (h : FactorCode fs (.name x) es) : ∀ ev ∈ es, ev.Sound D P := by
  intro ev hev
  cases h with
  | var hf =>
    obtain rfl := List.mem_singleton.1 hev
    obtain ⟨l, rfl, hl⟩ := Scoped.find_var hfs hf
    exact hl
  | const hf =>
    obtain rfl := List.mem_singleton.1 hev
    obtain ⟨n, rfl⟩ := Scoped.find_const hfs hf
    exact ⟨n, rfl⟩

mutual

theorem ExprCode.sound (hfs : ∀ f ∈ fs, Scoped D P f) : ∀ {e : Expr} {es : List Event},
    ExprCode fs e es → ∀ ev ∈ es, ev.Sound D P
  | .mk sign _ _, _, .mk ht hr =>
    List.forall_mem_append.2
      ⟨ht.sound hfs, List.forall_mem_append.2 ⟨hr.sound hfs, sound_sign sign⟩⟩

theorem TermsCode.sound (hfs : ∀ f ∈ fs, Scoped D P f) : ∀ {xs : List (AddOp × Term)}
    {es : List Event}, TermsCode fs xs es → ∀ ev ∈ es, ev.Sound D P
  | _, _, .nil => nofun
  | (op, _) :: _, _, .cons hx hr => by
    have hop : (addEvent op).Sound D P := by cases op <;> trivial
    exact List.forall_mem_append.2 ⟨hx.sound hfs, List.forall_mem_cons.2 ⟨hop, hr.sound hfs⟩⟩

theorem TermCode.sound (hfs : ∀ f ∈ fs, Scoped D P f) : ∀ {x : Term} {es : List Event},
    TermCode fs x es → ∀ ev ∈ es, ev.Sound D P
  | _, _, .mk hf hr => List.forall_mem_append.2 ⟨hf.sound hfs, hr.sound hfs⟩

theorem FactorsCode.sound (hfs : ∀ f ∈ fs, Scoped D P f) : ∀ {xs : List (MulOp × Factor)}
    {es : List Event}, FactorsCode fs xs es → ∀ ev ∈ es, ev.Sound D P
  | _, _, .nil => nofun
  | (op, _) :: _, _, .cons hx hr =>
    List.forall_mem_append.2 ⟨hx.sound hfs, List.forall_mem_append.2 ⟨sound_mul op, hr.sound hfs⟩⟩

theorem FactorCode.sound (hfs : ∀ f ∈ fs, Scoped D P f) : ∀ {x : Factor} {es : List Event},
    FactorCode fs x es → ∀ ev ∈ es, ev.Sound D P
  | .name _, _, h => sound_name hfs h
  | .number n, _, .number => by
    intro ev hev
    obtain rfl := List.mem_singleton.1 hev
    exact ⟨n, rfl⟩
  | _, _, .paren h => h.sound hfs

end

theorem ConditionCode.sound (hfs : ∀ f ∈ fs, Scoped D P f) {c : Condition} {es : List Event}
    (h : ConditionCode assembly fs c es) : ∀ ev ∈ es, ev.Sound D P := by
  cases h with
  | odd he => exact List.forall_mem_append.2 ⟨he.sound hfs, nofun⟩
  | @compare l r op w cs ds hl hr hw =>
    have hop : (Event.compare w).Sound D P := by
      cases hw
      exact ⟨op, rfl⟩
    exact List.forall_mem_append.2 ⟨hl.sound hfs, List.forall_mem_append.2 ⟨hr.sound hfs,
      List.forall_mem_singleton.2 hop⟩⟩

mutual

theorem StatementCode.sound (hfs : ∀ f ∈ fs, Scoped D P f) : ∀ {n m : Nat} {s : Statement}
    {es : List Event}, StatementCode assembly fs n s m es → ∀ ev ∈ es, ev.Sound D P
  | _, _, _, _, .assign he hf => by
    obtain ⟨l, rfl, hl⟩ := Scoped.find_var hfs hf
    exact List.forall_mem_append.2 ⟨he.sound hfs, List.forall_mem_singleton.2 hl⟩
  | _, _, _, _, .call hf => by
    obtain ⟨l, rfl, hl⟩ := Scoped.find_proc hfs hf
    exact List.forall_mem_singleton.2 hl
  | _, _, _, _, .block hs => hs.sound hfs
  | n, _, _, _, .ifThen hc hs => by
    have hl : Serial (serialLabel "if_false" (n + 1)) := .ofHint (by decide) _
    exact List.forall_mem_append.2 ⟨hc.sound hfs, List.forall_mem_cons.2 ⟨hl,
      List.forall_mem_append.2 ⟨hs.sound hfs, List.forall_mem_singleton.2 hl⟩⟩⟩
  | n, _, _, _, .whileDo ht hb hc hs => by
    subst ht hb
    have hl : Serial (serialLabel "while_start" (n + 1)) ∧
        Serial (serialLabel "while_end" (n + 2)) :=
      ⟨.ofHint (by decide) _, .ofHint (by decide) _⟩
    refine List.forall_mem_cons.2 ⟨hl, List.forall_mem_append.2 ⟨?_,
      List.forall_mem_singleton.2 hl⟩⟩
    exact List.forall_mem_append.2 ⟨hc.sound hfs, List.forall_mem_cons.2 ⟨hl, hs.sound hfs⟩⟩
  | _, _, _, _, .print he =>
    List.forall_mem_append.2 ⟨he.sound hfs, List.forall_mem_singleton.2 trivial⟩

theorem StatementsCode.sound (hfs : ∀ f ∈ fs, Scoped D P f) : ∀ {n m : Nat}
    {ss : List Statement} {es : List Event}, StatementsCode assembly fs n ss m es →
      ∀ ev ∈ es, ev.Sound D P
  | _, _, _, _, .nil => nofun
  | _, _, _, _, .cons hs hr => List.forall_mem_append.2 ⟨hs.sound hfs, hr.sound hfs⟩

end

end Sound

/-! ## events of programs -/

/-- an event that is no part of a statement: it declares, or is a border of a part of the program -/
def Event.Border : Event → Prop
  | .start | .cell _ | .procHead _ | .procOpen _ | .procClose _ | .mainOpen | .mainClose => True
  | _ => False

section Programs

variable {D P : String → Prop} {n m : Nat} {f f' : Frame} {es : List Event}

theorem border_cells (T : Target) (n : Nat) (xs : List String) :
    ∀ e ∈ cellEvents T n xs, e.Border := by
  induction xs generalizing n with
  | nil => exact nofun
  | cons x xs ih => exact List.forall_mem_cons.2 ⟨trivial, ih (n + 1)⟩

theorem ProcsCode.sound {fs : Frames} {procs : List (String × Block)}
    (h : ProcsCode assembly fs n f procs m f' es) (hD : ∀ l, .cell l ∈ es → D l)
    (hP : ∀ l, .procOpen l ∈ es → P l) (hfs : ∀ g ∈ f :: fs, Scoped D P g) :
    (∀ e ∈ es, e.Sound D P ∨ e.Border) ∧ Scoped D P f' := by
  induction h with
  | nil => exact ⟨nofun, hfs _ List.mem_cons_self⟩
  | @cons n m k f f' p consts vars inner rest body cs ds g label _ hg hs _ ih =>
    have hcells : ∀ l, .cell l ∈ cellEvents assembly (n + 1) (vars.getD []) → D l :=
      fun l hl => hD l (by simp [hl])
    have hscope := Scoped.procedure hg (hP label (by simp)) consts hcells hfs
    have hbody := hs.sound hscope
    obtain ⟨hds, hf'⟩ := ih (fun l hl => hD l (by simp [hl])) (fun l hl => hP l (by simp [hl]))
      (List.forall_mem_cons.1 hscope).2
    refine ⟨List.forall_mem_cons.2 ⟨.inr trivial, List.forall_mem_append.2 ⟨?_,
      List.forall_mem_cons.2 ⟨.inr trivial, List.forall_mem_append.2 ⟨?_,
        List.forall_mem_cons.2 ⟨.inr trivial, hds⟩⟩⟩⟩⟩, hf'⟩
    · exact fun e he => .inr (border_cells _ _ _ e he)
    · exact fun e he => .inl (hbody e he)

/-- programs use storage and procedures that they declare -/
theorem ProgramCode.sound {p : Program} (h : ProgramCode assembly p m f es)
    (hD : ∀ l, .cell l ∈ es → D l) (hP : ∀ l, .procOpen l ∈ es → P l) :
    ∀ e ∈ es, e.Sound D P ∨ e.Border := by
  cases h with
  | @mk k m f consts vars procs body cs ds hprocs hs =>
    have hframe : Scoped D P (declared assembly 0 {} consts vars) :=
      Scoped.empty.declared consts fun l hl => hD l (by simp [hl])
    obtain ⟨hcs, hf⟩ := hprocs.sound (fun l hl => hD l (by simp [hl]))
      (fun l hl => hP l (by simp [hl])) (List.forall_mem_singleton.2 hframe)
    have hbody := hs.sound (List.forall_mem_singleton.2 hf)
    refine List.forall_mem_cons.2 ⟨.inr trivial, List.forall_mem_append.2 ⟨?_,
      List.forall_mem_append.2 ⟨hcs, List.forall_mem_cons.2 ⟨.inr trivial,
        List.forall_mem_append.2 ⟨?_, List.forall_mem_singleton.2 (.inr trivial)⟩⟩⟩⟩⟩
    · exact fun e he => .inr (border_cells _ _ _ e he)
    · exact fun e he => .inl (hbody e he)

end Programs

/-! ## labels are plain words -/

theorem toNat_of_isNameChar {c : Char} (h : Lexeme.isNameChar c = true) :
    48 ≤ c.toNat ∧ c.toNat ≤ 57 ∨ 65 ≤ c.toNat ∧ c.toNat ≤ 90 ∨
      97 ≤ c.toNat ∧ c.toNat ≤ 122 ∨ c.toNat = 95 := by
  simp only [Lexeme.isNameChar, Char.isAlphanum, Bool.or_eq_true, Text.isAlpha_iff,
    beq_iff_eq] at h
  rcases h with ((hu | hl) | hd) | rfl
  · exact .inr (.inl hu)
  · exact .inr (.inr (.inl hl))
  · exact .inl (Text.toNat_of_isDigit hd)
  · exact .inr (.inr (.inr rfl))

theorem plain_of_isNameChar {c : Char} (h : Lexeme.isNameChar c = true) :
    Text.isBlank c = false ∧ c ≠ ':' ∧ c ≠ '#' := by
  have hn := toNat_of_isNameChar h
  refine ⟨?_, ?_, ?_⟩
  · simp only [Text.isBlank, Bool.or_eq_false_iff, Bool.and_eq_false_iff, decide_eq_false_iff_not]
    omega
  · rintro rfl
    revert hn
    decide
  · rintro rfl
    revert hn
    decide

theorem isNameChar_of_isDigit {c : Char} (h : c.isDigit = true) : Lexeme.isNameChar c = true := by
  simp [Lexeme.isNameChar, Char.isAlphanum, h]

theorem Serial.plain {l : String} (h : Serial l) : Machine.Plain l.toList := by
  obtain ⟨hint, n, hc, rfl⟩ := h
  rw [toList_serialLabel]
  refine ⟨List.cons_ne_nil _ _, fun c hm => plain_of_isNameChar ?_⟩
  rcases List.mem_cons.1 hm with rfl | hm
  · decide
  rcases List.mem_cons.1 hm with rfl | hm
  · decide
  rcases List.mem_append.1 hm with hm | hm
  · exact hc c hm
  rcases List.mem_cons.1 hm with rfl | hm
  · decide
  · exact isNameChar_of_isDigit (Text.isDigit_of_mem_toDigits hm)

theorem plain_intText (n : Nat) : Machine.Plain (Text.intText n).toList := by
  rw [Text.toList_intText]
  refine ⟨Nat.toDigits_ne_nil, fun c hc => plain_of_isNameChar ?_⟩
  exact isNameChar_of_isDigit (Text.isDigit_of_mem_toDigits hc)

theorem Event.Sound.plain {e : Event} (h : e.Sound Serial Serial) : e.Plain := by
  cases e with
  | load l | save l | call l | branch l | join l => exact Serial.plain h
  | number t | constant t =>
    obtain ⟨n, rfl⟩ := h
    exact plain_intText n
  | compare w => exact h
  | loopOpen top bottom => exact h.1.plain
  | loopExit top bottom => exact h.2.plain
  | loopClose top bottom => exact ⟨h.1.plain, h.2.plain⟩
  | mul | add | sub | negate | print => trivial
  | _ => exact h.elim

theorem nameChars_of_identifier {x : String} (h : Identifier x) :
    ∀ c ∈ x.toList, Lexeme.isNameChar c = true := by
  obtain ⟨c, cs, hx, hc, hcs⟩ := h.start
  rw [hx]
  exact List.forall_mem_cons.2 ⟨Lexeme.isNameChar_of_isNameStart hc, hcs⟩

theorem serial_name {lead x : String} (hlead : lead.toList.all Lexeme.isNameChar = true)
    (h : Identifier x) (n : Nat) : Serial (serialLabel (lead ++ x) n) := by
  refine ⟨lead ++ x, n, ?_, rfl⟩
  rw [String.toList_append]
  exact List.forall_mem_append.2 ⟨List.all_eq_true.1 hlead, nameChars_of_identifier h⟩

theorem serial_var {x : String} (h : Identifier x) (n : Nat) : Serial (varLabel assembly n x) :=
  serial_name (by decide) h (n + 1)

theorem serial_proc {x : String} (h : Identifier x) (n : Nat) : Serial (procLabel assembly n x) :=
  serial_name (by decide) h (n + 1)

theorem serial_cells {xs : List String} (h : ∀ x ∈ xs, Identifier x) (n : Nat) :
    ∀ l, .cell l ∈ cellEvents assembly n xs → Serial l := by
  induction xs generalizing n with
  | nil => exact nofun
  | cons x xs ih =>
    intro l hl
    rcases List.mem_cons.1 hl with hl | hl
    · cases hl
      exact serial_var (h x List.mem_cons_self) n
    · exact ih (fun y hy => h y (List.mem_cons_of_mem x hy)) _ l hl

theorem eq_cell_of_mem {T : Target} {xs : List String} {n : Nat} {e : Event}
    (h : e ∈ cellEvents T n xs) : ∃ l, e = .cell l := by
  induction xs generalizing n with
  | nil => cases h
  | cons x xs ih =>
    rcases List.mem_cons.1 h with rfl | h
    · exact ⟨_, rfl⟩
    · exact ih h

theorem plain_cells {xs : List String} (h : ∀ x ∈ xs, Identifier x) (n : Nat) :
    ∀ e ∈ cellEvents assembly n xs, e.Plain := by
  intro e he
  obtain ⟨l, rfl⟩ := eq_cell_of_mem he
  exact (serial_cells h n l he).plain

/-- names that the blocks of procedures declare are identifiers -/
def NamedProcs (procs : List (String × Block)) : Prop :=
  ∀ x, Symbol.name x ∈ Block.procSymbols procs → Identifier x

theorem mem_varsSymbols {vars : Option (List String)} {x : String} (h : x ∈ vars.getD []) :
    Symbol.name x ∈ varsSymbols vars := by
  cases vars with
  | none => cases h
  | some xs =>
    have hlist : Symbol.name x ∈ Symbol.commaList (xs.map fun y => [.name y]) :=
      mem_commaList List.mem_cons_self (List.mem_map_of_mem h)
    exact List.mem_cons_of_mem _ (List.mem_append_left _ hlist)

/-- what the events of procedures are, where the names are identifiers -/
theorem ProcsCode.plain {fs : Frames} {n m : Nat} {f f' : Frame} {procs : List (String × Block)}
    {es : List Event} (h : ProcsCode assembly fs n f procs m f' es) (hnames : NamedProcs procs)
    (hfs : ∀ g ∈ f :: fs, Scoped Serial Serial g) :
    (∀ e ∈ es, e.Plain) ∧ Scoped Serial Serial f' := by
  induction h with
  | nil => exact ⟨nofun, hfs _ List.mem_cons_self⟩
  | @cons n m k f f' p consts vars inner rest body cs ds g label hl hg hs _ ih =>
    have hp : Identifier p := hnames p (by simp [Block.procSymbols])
    have hvars : ∀ x ∈ vars.getD [], Identifier x := by
      intro x hx
      have hmem := mem_varsSymbols hx
      exact hnames x (by simp [Block.procSymbols, Block.symbols, hmem])
    have hrest : NamedProcs rest := fun x hx => hnames x (by simp [Block.procSymbols, hx])
    have hlabel : Serial label := hl ▸ serial_proc hp n
    have hscope := Scoped.procedure hg hlabel consts (serial_cells hvars (n + 1)) hfs
    have hbody := hs.sound hscope
    obtain ⟨hds, hf'⟩ := ih hrest (List.forall_mem_cons.1 hscope).2
    refine ⟨List.forall_mem_cons.2 ⟨?_, List.forall_mem_append.2 ⟨plain_cells hvars _,
      List.forall_mem_cons.2 ⟨hlabel.plain, List.forall_mem_append.2
        ⟨fun e he => (hbody e he).plain, List.forall_mem_cons.2 ⟨trivial, hds⟩⟩⟩⟩⟩, hf'⟩
    intro hm
    exact absurd (nameChars_of_identifier hp _ hm) (by decide)

theorem ProgramCode.plain {p : Program} {m : Nat} {f : Frame} {es : List Event}
    (h : ProgramCode assembly p m f es) (hp : p.Shaped) : ∀ e ∈ es, e.Plain := by
  cases h with
  | @mk k m f consts vars procs body cs ds hprocs hs =>
    have hvars : ∀ x ∈ vars.getD [], Identifier x := by
      intro x hx
      have hmem := mem_varsSymbols hx
      exact hp.names x (by simp [Program.symbols, Block.symbols, hmem])
    have hnames : NamedProcs procs := by
      intro x hx
      exact hp.names x (by simp [Program.symbols, Block.symbols, hx])
    have hframe : Scoped Serial Serial (declared assembly 0 {} consts vars) :=
      Scoped.empty.declared consts (serial_cells hvars 0)
    obtain ⟨hcs, hf⟩ := hprocs.plain hnames (List.forall_mem_singleton.2 hframe)
    have hbody := hs.sound (List.forall_mem_singleton.2 hf)
    exact List.forall_mem_cons.2 ⟨trivial, List.forall_mem_append.2 ⟨plain_cells hvars 0,
      List.forall_mem_append.2 ⟨hcs, List.forall_mem_cons.2 ⟨trivial, List.forall_mem_append.2
        ⟨fun e he => (hbody e he).plain, List.forall_mem_singleton.2 trivial⟩⟩⟩⟩⟩

/-- the text of a program is read as its items -/
theorem asmLines_program {p : Program} {m : Nat} {f : Frame} {es : List Event}
    (h : ProgramCode assembly p m f es) (hp : p.Shaped) :
    asmLines (render assembly es).toList = (itemsOf es).map Item.line :=
  asmLines_render (h.plain hp)

end Pl0Kit.Generator
