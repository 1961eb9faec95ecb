import Pl0Kit.Proofs.Balance

/-!
# Parts of a program

The code of a program is a jump to its main part, storage, procedures with their storage, and the
main part.  `Program.closed` shows that all parts are balanced: every label that may be jumped to or
called is followed by balanced code, and no temporaries are left over before it.
-/

namespace Pl0Kit.Machine

/-- labels stand before balanced code -/
def Closed (xs : List Item) (J : Bool → String → Prop) : Prop :=
  ∀ p l, J p l → ∃ pre c, xs = pre ++ c ∧ operand xs l = .int (address xs c) ∧ effect pre = 0 ∧
    Fits xs J p 0 c

end Pl0Kit.Machine

namespace Pl0Kit.Generator

open Machine

variable {D P : String → Prop} {xs : List Item} {J : Bool → String → Prop}

/-! ## code of statements -/

theorem serial_ne_main {l : String} (h : Serial l) : l ≠ "main" := by
  obtain ⟨hint, n, -, rfl⟩ := h
  exact serialLabel_ne_main hint n

theorem Event.Sound.isOpen {e : Event} (h : e.Sound D P) : Open e.items := by
  cases e with
  | compare w =>
    obtain ⟨op, rfl⟩ := h
    refine List.forall_mem_singleton.2 ?_
    cases op <;> simp [Item.Final, compareOpcode, Opcode.ofName?, Opcode.all, Opcode.name,
      RelOp.word]
  | loopClose top bottom =>
    refine List.forall_mem_cons.2 ⟨?_, List.forall_mem_singleton.2 ?_⟩
    · simp [Item.Final, serial_ne_main h.1]
    · simp [Item.Final]
  | start | cell _ | procHead _ | procOpen _ | procClose _ | mainOpen | mainClose | odd | div =>
    exact h.elim
  | _ => simp [Open, Event.items, Item.Final]

theorem open_itemsOf {es : List Event} (h : ∀ e ∈ es, e.Sound D P) : Open (itemsOf es) := by
  induction es with
  | nil => exact nofun
  | cons e es ih =>
    obtain ⟨he, hes⟩ := List.forall_mem_cons.1 h
    exact he.isOpen.append (ih hes)

/-! ## procedures -/

theorem targetsOf_sound {es : List Event} (h : ∀ e ∈ es, e.Sound D P) :
    targetsOf es = placedBy es :=
  targetsOf_eq fun _ hl => h _ hl

theorem effect_cells (T : Target) (n : Nat) (ys : List String) :
    effect (itemsOf (cellEvents T n ys)) = 0 := by
  induction ys generalizing n with
  | nil => rfl
  | cons y ys ih =>
    rw [cellEvents, itemsOf_cons, effect_append, ih]
    rfl

/-- balanced code follows the label `l` of `code`, whatever comes after `code` -/
def Enters (xs : List Item) (J : Bool → String → Prop) (p : Bool) (l : String) (code : List Item) :
    Prop :=
  ∃ a b, code = a ++ .label l :: b ∧ effect a = 0 ∧ ∀ c, Fits xs J p 0 (b ++ c)

section Enters

variable {p : Bool} {l : String}

theorem Enters.prepend {code a : List Item} (h : Enters xs J p l code) (ha : effect a = 0) :
    Enters xs J p l (a ++ code) := by
  obtain ⟨b, c, rfl, hb, hc⟩ := h
  exact ⟨a ++ b, c, by rw [List.append_assoc], by rw [effect_append, ha, hb]; rfl, hc⟩

theorem Enters.extend {code : List Item} (h : Enters xs J p l code) (rest : List Item) :
    Enters xs J p l (code ++ rest) := by
  obtain ⟨a, b, rfl, ha, hb⟩ := h
  refine ⟨a, b ++ rest, by simp, ha, fun c => ?_⟩
  rw [List.append_assoc]
  exact hb (rest ++ c)

/-- a part can be entered at its label and at the labels in its body -/
theorem enters_part {label : String} {last : Item} {body : List Item} (hopen : Open body)
    (hfits : ∀ c, Fits xs J p 0 (body ++ last :: c)) (h : .label l ∈ .label label :: body) :
    Enters xs J p l (.label label :: (body ++ [last])) := by
  rcases List.mem_cons.1 h with he | hmem
  · cases he
    refine ⟨[], body ++ [last], rfl, rfl, fun c => ?_⟩
    rw [List.append_assoc]
    exact hfits c
  · obtain ⟨a, b, rfl⟩ := List.append_of_mem hmem
    have ha : Open a := fun x hx => hopen x (List.mem_append_left _ hx)
    have hsplit : ∀ c, effect a = 0 ∧ Fits xs J p 0 (b ++ last :: c) := by
      intro c
      have h := hfits c
      rw [List.append_assoc] at h
      exact h.split ha
    refine ⟨.label label :: a, b ++ [last], by simp, ?_, fun c => ?_⟩
    · rw [effect_cons, (hsplit []).1]
      rfl
    · rw [List.append_assoc]
      exact (hsplit c).2

end Enters

/-- the labels of a part are its own label and those its body places -/
theorem label_mem_part {l label : String} {cs : List Event} (h : l ∈ label :: placedBy cs) :
    .label l ∈ .label label :: itemsOf cs := by
  rcases List.mem_cons.1 h with rfl | hl
  · exact List.mem_cons_self
  · rw [← labelsOf_itemsOf, mem_labelsOf] at hl
    exact List.mem_cons_of_mem _ hl

/-- the code of a procedure: its storage, and its label, body and return -/
theorem itemsOf_procedure (T : Target) (n : Nat) (p label : String) (ys : List String)
    (cs ds : List Event) :
    itemsOf (.procHead p :: (cellEvents T n ys ++ .procOpen label ::
      (cs ++ .procClose label :: ds))) =
      (.note :: itemsOf (cellEvents T n ys)) ++
        ((.label label :: (itemsOf cs ++ [.op .ret])) ++ itemsOf ds) := by
  simp [Event.items]

theorem ProcsCode.enters {fs : Frames} {n m : Nat} {f f' : Frame} {procs : List (String × Block)}
    {es : List Event} (h : ProcsCode assembly fs n f procs m f' es)
    (hw : Block.procsWithin .noDivision procs) (hcells : ∀ l, .cell l ∈ es → Stored xs l)
    (hJ : ∀ l ∈ targetsOf es, J true l) (hfs : InScope xs J (f :: fs)) :
    effect (itemsOf es) = 0 ∧ InScope xs J (f' :: fs) ∧
      ∀ l ∈ targetsOf es, Enters xs J true l (itemsOf es) := by
  induction h with
  | nil => exact ⟨rfl, hfs, nofun⟩
  | @cons n m k f f' p consts vars inner rest body cs ds g label hl hg hs _ ih =>
    rw [targetsOf_procedure, List.forall_mem_cons, List.forall_mem_append] at hJ
    obtain ⟨hlabel, hbodyJ, hrestJ⟩ := hJ
    have hlocal : ∀ l, .cell l ∈ cellEvents assembly (n + 1) (vars.getD []) → Stored xs l :=
      fun l hl => hcells l (by simp [hl])
    have hscope := Scoped.procedure hg hlabel consts hlocal hfs
    have hsound := hs.sound hscope
    have hopen := open_itemsOf hsound
    rw [targetsOf_sound hsound] at hbodyJ
    have hfits : ∀ c, Fits xs J true 0 (itemsOf cs ++ .op .ret :: c) := fun c =>
      hs.fits hscope hw.1.2 hbodyJ (.ret rfl)
    have hbody : effect (itemsOf cs) = 0 := (hfits []).effect_eq_zero hopen (.inl rfl)
    obtain ⟨hrest, hf', henter⟩ := ih hw.2
      (fun l hl => hcells l (by simp [hl])) hrestJ (List.forall_mem_cons.1 hscope).2
    have hhead : effect (.note :: itemsOf (cellEvents assembly (n + 1) (vars.getD []))) = 0 := by
      rw [effect_cons, effect_cells]
      rfl
    have hpart : effect (.label label :: (itemsOf cs ++ [.op .ret])) = 0 := by
      rw [effect_cons, effect_append, hbody]
      rfl
    rw [itemsOf_procedure]
    refine ⟨?_, hf', ?_⟩
    · rw [effect_append, hhead, effect_append, hpart, hrest]
      rfl
    · rw [targetsOf_procedure, targetsOf_sound hsound, ← List.cons_append]
      intro l hl
      rcases List.mem_append.1 hl with hl | hl
      · exact ((enters_part hopen hfits (label_mem_part hl)).extend _).prepend hhead
      · exact ((henter l hl).prepend hpart).prepend hhead

/-! ## whole programs -/

/-- where control can come to in the main part and in procedures -/
def targets (procs main : List Event) : Bool → String → Prop
  | true, l => l ∈ targetsOf procs
  | false, l => l ∈ "main" :: placedBy main

/-- every label that control can come to is in front of balanced code -/
theorem ProgramCode.enters {p : Program} {m : Nat} {f : Frame} {es : List Event}
    (h : ProgramCode assembly p m f es) (hp : p.Shaped) (hw : p.Within .noDivision) :
    ∃ J, (∀ q l, J q l → Enters (itemsOf es) J q l (itemsOf es)) ∧
      (∀ l ∈ targetsOf es, ∃ q, J q l) ∧ Fits (itemsOf es) J false 0 (itemsOf es) := by
  have hstored : ∀ l, .cell l ∈ es → Stored (itemsOf es) l := fun l => h.operand_cell hp
  cases h with
  | @mk k m f consts vars procs body cs ds hprocs hs =>
    have htargets := targetsOf_program assembly 0 (vars.getD []) cs ds
    have hitems := itemsOf_program (cellEvents assembly 0 (vars.getD [])) cs ds
    generalize itemsOf (.start :: _) = xs at *
    have hglobals : Scoped (Stored xs) (targets cs ds true) (declared assembly 0 {} consts vars) :=
      Scoped.empty.declared consts fun l hl =>
        hstored l (List.mem_cons_of_mem _ (List.mem_append_left _ hl))
    obtain ⟨heffect, hscope, henter⟩ := hprocs.enters hw.1 (fun l hl => hstored l (by simp [hl]))
      (fun l hl => hl) (List.forall_mem_singleton.2 hglobals)
    have hsound := hs.sound hscope
    have hopen := open_itemsOf hsound
    have hmain : ∀ l ∈ placedBy ds, targets cs ds false l := fun l hl => List.mem_cons_of_mem _ hl
    have hfits : ∀ c, Fits xs (targets cs ds) false 0 (itemsOf ds ++ .op .halt :: c) := fun c =>
      hs.fits hscope hw.2 hmain (.halt rfl)
    have hcells : effect (.opWord .jmp "main" ::
        itemsOf (cellEvents assembly 0 (vars.getD []))) = 0 := by
      rw [effect_cons, effect_cells]
      rfl
    have hparts : ∀ q l, targets cs ds q l → Enters xs (targets cs ds) q l (itemsOf cs ++
        .label "main" :: (itemsOf ds ++ [.op .halt])) := by
      intro q l hl
      cases q with
      | true => exact (henter l hl).extend _
      | false => exact (enters_part hopen hfits (label_mem_part hl)).prepend heffect
    refine ⟨targets cs ds, fun q l hl => ?_, fun l hl => ?_, ?_⟩
    · have h := (hparts q l hl).prepend hcells
      rwa [List.cons_append, ← hitems] at h
    · rw [htargets, targetsOf_sound hsound] at hl
      rcases List.mem_append.1 hl with hl | hl
      · exact ⟨true, hl⟩
      · exact ⟨false, hl⟩
    · have h : ∀ c, Fits xs (targets cs ds) false 0 (.opWord .jmp "main" :: c) := fun c =>
        .enter rfl List.mem_cons_self
      exact hitems.symm ▸ h _

/-- **The code of a program without division is balanced.** -/
theorem ProgramCode.closed {p : Program} {m : Nat} {f : Frame} {es : List Event}
    (h : ProgramCode assembly p m f es) (hp : p.Shaped) (hw : p.Within .noDivision) :
    ∃ J, Closed (itemsOf es) J ∧ Fits (itemsOf es) J false 0 (itemsOf es) := by
  obtain ⟨J, hJ, -, hstart⟩ := h.enters hp hw
  refine ⟨J, fun q l hl => ?_, hstart⟩
  obtain ⟨a, b, hxs, ha, hb⟩ := hJ q l hl
  refine ⟨a ++ [.label l], b, (after_label hxs).1, h.operand_eq hp hxs, ?_, by simpa using hb []⟩
  rw [effect_append, ha]
  rfl

end Pl0Kit.Generator
