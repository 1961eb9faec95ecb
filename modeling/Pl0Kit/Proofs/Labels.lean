import Mathlib.Data.List.Pairwise
import Pl0Kit.Proofs.Generated
import Pl0Kit.Proofs.Numeral

/-!
# Labels

Labels that carry a serial number are different for different numbers, whatever their hints, since a
number holds no underscore (`serialLabel_inj`).  The generators take the numbers from one counter,
so no label of a program is placed twice (`ProgramCode.nodup`), and every label that a program jumps
to is placed, and not at a cell of storage (`ProgramCode.jumps_targets`).
-/

namespace Pl0Kit.Generator

/-! ## serial labels -/

theorem toList_serialLabel (hint : String) (n : Nat) :
    (serialLabel hint n).toList = 't' :: '_' :: (hint.toList ++ '_' :: Nat.toDigits 10 n) := by
  simp [serialLabel]

theorem takeWhile_reverse_digits (cs : List Char) (n : Nat) :
    (cs ++ '_' :: Nat.toDigits 10 n).reverse.takeWhile (· != '_') =
      (Nat.toDigits 10 n).reverse := by
  have hd : ∀ c ∈ (Nat.toDigits 10 n).reverse, (c != '_') = true := by
    intro c hc
    rw [bne_iff_ne]
    rintro rfl
    exact Nat.underscore_not_in_toDigits (List.mem_reverse.1 hc)
  rw [List.reverse_append, List.reverse_cons, List.append_assoc, List.takeWhile_append_of_pos hd]
  simp

/-- a label tells its hint and its number -/
theorem serialLabel_inj {hint hint' : String} {n n' : Nat}
    (h : serialLabel hint n = serialLabel hint' n') : hint = hint' ∧ n = n' := by
  have hl := congrArg String.toList h
  rw [toList_serialLabel, toList_serialLabel, List.cons_inj_right, List.cons_inj_right] at hl
  have hn : n = n' := by
    have hd := congrArg (fun cs => cs.reverse.takeWhile (· != '_')) hl
    simp only [takeWhile_reverse_digits, List.reverse_inj] at hd
    exact Text.toDigits_inj hd
  rw [hn, List.append_cancel_right_eq] at hl
  exact ⟨String.ext hl, hn⟩

/-- labels with the same serial number, whatever their hints -/
def SameNumber (l k : String) : Prop :=
  ∃ hint hint' n, l = serialLabel hint n ∧ k = serialLabel hint' n

theorem SameNumber.symm {l k : String} (h : SameNumber l k) : SameNumber k l := by
  obtain ⟨hint, hint', n, hl, hk⟩ := h
  exact ⟨hint', hint, n, hk, hl⟩

theorem SameNumber.trans {l k j : String} (h : SameNumber l k) (h' : SameNumber k j) :
    SameNumber l j := by
  obtain ⟨a, b, n, rfl, rfl⟩ := h
  obtain ⟨c, d, m, heq, rfl⟩ := h'
  obtain rfl := (serialLabel_inj heq).2
  exact ⟨a, d, n, rfl, rfl⟩

theorem serialLabel_ne_main (hint : String) (n : Nat) : serialLabel hint n ≠ "main" := by
  intro h
  have hl := congrArg String.toList h
  rw [toList_serialLabel] at hl
  cases hl

/-! ## labels that events place -/

/-- the labels that an event places in the code -/
def Event.placed : Event → List String
  | .cell l | .procOpen l | .join l => [l]
  | .loopOpen top _ => [top]
  | .loopClose _ bottom => [bottom]
  | .mainOpen => ["main"]
  | _ => []

def placedBy (es : List Event) : List String := es.flatMap Event.placed

@[simp] theorem placedBy_nil : placedBy [] = [] := rfl

@[simp] theorem placedBy_cons (e : Event) (es : List Event) :
    placedBy (e :: es) = e.placed ++ placedBy es := rfl

@[simp] theorem placedBy_append (es ds : List Event) :
    placedBy (es ++ ds) = placedBy es ++ placedBy ds := List.flatMap_append

theorem placedBy_ifThen (cs ds : List Event) (l : String) :
    placedBy (cs ++ .branch l :: (ds ++ [.join l])) = placedBy cs ++ (placedBy ds ++ [l]) := by
  simp [Event.placed]

theorem placedBy_whileDo (top bottom : String) (cs ds : List Event) :
    placedBy (.loopOpen top bottom ::
        (loopEvents assembly top bottom cs ds ++ [.loopClose top bottom])) =
      top :: (placedBy cs ++ (placedBy ds ++ [bottom])) := by
  simp [Event.placed, loopEvents, assembly]

theorem mem_placedBy {es : List Event} {e : Event} {l : String} (he : e ∈ es) (hl : l ∈ e.placed) :
    l ∈ placedBy es := List.mem_flatMap.2 ⟨e, he, hl⟩

/-- the labels that an event jumps to, apart from calls -/
def Event.jumps : Event → List String
  | .branch l => [l]
  | .loopExit _ bottom => [bottom]
  | .loopClose top _ => [top]
  | .start => ["main"]
  | _ => []

/-- labels with different numbers, above `n` and up to `m` -/
structure Fresh (n m : Nat) (ls : List String) : Prop where
  apart : ls.Pairwise fun l k => ¬ SameNumber l k
  serial : ∀ l ∈ ls, ∃ hint k, n < k ∧ k ≤ m ∧ l = serialLabel hint k

namespace Fresh

variable {n m a b c d : Nat} {ls ks : List String}

theorem nil : Fresh n m [] := ⟨List.Pairwise.nil, nofun⟩

theorem nodup (h : Fresh n m ls) : ls.Nodup := by
  refine h.apart.imp_of_mem fun {l k} hl _ hne heq => hne ?_
  obtain ⟨hint, i, -, -, rfl⟩ := h.serial l hl
  exact ⟨hint, hint, i, rfl, heq.symm⟩

/-- the number tells the label -/
theorem eq_of_sameNumber (h : Fresh n m ls) {l k : String} (hl : l ∈ ls) (hk : k ∈ ls)
    (hlk : SameNumber l k) : l = k := by
  have hsymm : Std.Symm fun l k => ¬ SameNumber l k := ⟨fun l k hne hkl => hne hkl.symm⟩
  by_contra hne
  exact h.apart.forall hl hk hne hlk

theorem single (hint : String) (hn : n < a) (hm : a ≤ m) : Fresh n m [serialLabel hint a] := by
  refine ⟨List.pairwise_singleton _ _, fun l hl => ?_⟩
  obtain rfl := List.mem_singleton.1 hl
  exact ⟨hint, a, hn, hm, rfl⟩

theorem mono (h : Fresh a b ls) (hn : n ≤ a) (hm : b ≤ m) : Fresh n m ls := by
  refine ⟨h.apart, fun l hl => ?_⟩
  obtain ⟨hint, k, hk, hk', rfl⟩ := h.serial l hl
  exact ⟨hint, k, by omega, by omega, rfl⟩

/-- labels from ranges of numbers that do not meet -/
theorem append (h : Fresh a b ls) (h' : Fresh c d ks) (hdisj : b ≤ c ∨ d ≤ a) (hna : n ≤ a)
    (hnc : n ≤ c) (hbm : b ≤ m) (hdm : d ≤ m) : Fresh n m (ls ++ ks) := by
  refine ⟨List.pairwise_append.2 ⟨h.apart, h'.apart, fun l hl k hk hlk => ?_⟩, fun l hl => ?_⟩
  · obtain ⟨hint, i, hi, hi', rfl⟩ := h.serial l hl
    obtain ⟨hint', j, hj, hj', rfl⟩ := h'.serial k hk
    obtain ⟨_, _, r, hr, hr'⟩ := hlk
    have hri : i = r := (serialLabel_inj hr).2
    have hrj : j = r := (serialLabel_inj hr').2
    omega
  · rcases List.mem_append.1 hl with hl | hl
    · exact (h.mono hna hbm).serial l hl
    · exact (h'.mono hnc hdm).serial l hl

/-- labels whose numbers follow one another -/
theorem trans (h : Fresh a b ls) (h' : Fresh b c ks) (hab : a ≤ b) (hbc : b ≤ c) :
    Fresh a c (ls ++ ks) :=
  h.append h' (.inl (Nat.le_refl b)) (Nat.le_refl a) hab hbc (Nat.le_refl c)

end Fresh

/-! ## expressions have no labels -/

variable {fs : Frames} {n m : Nat} {es : List Event}

/-- an event of a straight line of code -/
def Event.Straight (e : Event) : Prop := e.placed = [] ∧ e.jumps = []

theorem placedBy_straight (h : ∀ e ∈ es, e.Straight) : placedBy es = [] :=
  List.flatMap_eq_nil_iff.2 fun e he => (h e he).1

/-- an event of an expression or a comparison -/
def Event.Computes : Event → Prop
  | .number _ | .constant _ | .load _ | .add | .sub | .mul | .negate | .compare _ | .odd => True
  | _ => False

theorem Event.Computes.straight {e : Event} (h : e.Computes) : e.Straight := by
  cases e with
  | number _ | constant _ | load _ | add | sub | mul | negate | compare _ | odd => exact ⟨rfl, rfl⟩
  | _ => exact h.elim

mutual

theorem ExprCode.event : ∀ {e : Expr} {es : List Event}, ExprCode fs e es → ∀ ev ∈ es, ev.Computes
  | .mk sign _ _, _, .mk ht hr => by
    have hsign : ∀ ev ∈ signEvents sign, ev.Computes := by
      rcases sign with _ | _ | _
      · exact nofun
      · exact nofun
      · exact List.forall_mem_singleton.2 trivial
    exact List.forall_mem_append.2 ⟨ht.event, List.forall_mem_append.2 ⟨hr.event, hsign⟩⟩

theorem TermsCode.event : ∀ {xs : List (AddOp × Term)} {es : List Event}, TermsCode fs xs es →
    ∀ ev ∈ es, ev.Computes
  | _, _, .nil => nofun
  | (op, _) :: _, _, .cons hx hr => by
    have hop : (addEvent op).Computes := by cases op <;> trivial
    exact List.forall_mem_append.2 ⟨hx.event, List.forall_mem_cons.2 ⟨hop, hr.event⟩⟩

theorem TermCode.event : ∀ {x : Term} {es : List Event}, TermCode fs x es → ∀ ev ∈ es, ev.Computes
  | _, _, .mk hf hr => List.forall_mem_append.2 ⟨hf.event, hr.event⟩

theorem FactorsCode.event : ∀ {xs : List (MulOp × Factor)} {es : List Event}, FactorsCode fs xs es →
    ∀ ev ∈ es, ev.Computes
  | _, _, .nil => nofun
  | (op, _) :: _, _, .cons hx hr => by
    have hop : ∀ ev ∈ mulEvents op, ev.Computes := by
      cases op with
      | times => exact List.forall_mem_singleton.2 trivial
      | divide => exact nofun
    exact List.forall_mem_append.2 ⟨hx.event, List.forall_mem_append.2 ⟨hop, hr.event⟩⟩

theorem FactorCode.event : ∀ {x : Factor} {es : List Event}, FactorCode fs x es →
    ∀ ev ∈ es, ev.Computes
  | _, _, .var _ | _, _, .const _ | _, _, .number => List.forall_mem_singleton.2 trivial
  | _, _, .paren h => h.event

end

theorem ConditionCode.event {T : Target} {c : Condition} (h : ConditionCode T fs c es) :
    ∀ ev ∈ es, ev.Computes := by
  cases h with
  | odd he =>
    refine List.forall_mem_append.2 ⟨he.event, ?_⟩
    rw [oddEvents]
    split
    · exact List.forall_mem_singleton.2 trivial
    · exact nofun
  | compare hl hr _ =>
    exact List.forall_mem_append.2 ⟨hl.event, List.forall_mem_append.2 ⟨hr.event,
      List.forall_mem_singleton.2 trivial⟩⟩

theorem ExprCode.straight {e : Expr} (h : ExprCode fs e es) : ∀ ev ∈ es, ev.Straight :=
  fun ev hev => (h.event ev hev).straight

theorem ConditionCode.straight {T : Target} {c : Condition} (h : ConditionCode T fs c es) :
    ∀ ev ∈ es, ev.Straight := fun ev hev => (h.event ev hev).straight

/-! ## programs place each label once -/

mutual

theorem StatementCode.fresh : ∀ {n m : Nat} {s : Statement} {es : List Event},
    StatementCode assembly fs n s m es → n ≤ m ∧ Fresh n m (placedBy es)
  | n, _, _, _, .assign he _ => by
    rw [placedBy_append, placedBy_straight he.straight]
    exact ⟨Nat.le_refl n, .nil⟩
  | n, _, _, _, .call _ => ⟨Nat.le_refl n, .nil⟩
  | _, _, _, _, .block hs => hs.fresh
  | n, m, _, _, .ifThen hc hs => by
    obtain ⟨hle, hbody⟩ := hs.fresh
    have hlabel : Fresh n (n + 1) [serialLabel "if_false" (n + 1)] :=
      .single _ (by omega) (by omega)
    rw [placedBy_ifThen, placedBy_straight hc.straight, List.nil_append]
    exact ⟨by omega, hbody.append hlabel (.inr (Nat.le_refl _)) (by omega) (by omega) (by omega)
      (by omega)⟩
  | n, m, _, _, @StatementCode.whileDo _ _ _ _ _ _ _ ds _ _ ht hb hc hs => by
    obtain ⟨hle, hbody⟩ := hs.fresh
    subst ht hb
    have htop : Fresh n (n + 1) [serialLabel "while_start" (n + 1)] :=
      .single _ (by omega) (by omega)
    have hbottom : Fresh (n + 1) (n + 2) [serialLabel "while_end" (n + 2)] :=
      .single _ (by omega) (by omega)
    have hinner : Fresh (n + 1) m (placedBy ds ++ [serialLabel "while_end" (n + 2)]) :=
      hbody.append hbottom (.inr (Nat.le_refl _)) (by omega) (by omega) (by omega) (by omega)
    rw [placedBy_whileDo, placedBy_straight hc.straight, List.nil_append]
    exact ⟨by omega, htop.trans hinner (by omega) (by omega)⟩
  | n, _, _, _, .print he => by
    rw [placedBy_append, placedBy_straight he.straight]
    exact ⟨Nat.le_refl n, .nil⟩

theorem StatementsCode.fresh : ∀ {n m : Nat} {ss : List Statement} {es : List Event},
    StatementsCode assembly fs n ss m es → n ≤ m ∧ Fresh n m (placedBy es)
  | n, _, _, _, .nil => ⟨Nat.le_refl n, .nil⟩
  | _, _, _, _, .cons hs hr => by
    obtain ⟨hle, hfirst⟩ := hs.fresh
    obtain ⟨hle', hrest⟩ := hr.fresh
    rw [placedBy_append]
    exact ⟨by omega, hfirst.trans hrest hle hle'⟩

end

theorem cellEvents_fresh (n : Nat) (xs : List String) :
    Fresh n (n + xs.length) (placedBy (cellEvents assembly n xs)) := by
  induction xs generalizing n with
  | nil => exact .nil
  | cons x xs ih =>
    have hlabel : Fresh n (n + 1) [varLabel assembly n x] := .single _ (by omega) (by omega)
    have hrest := hlabel.trans (ih (n + 1)) (by omega) (by omega)
    rw [cellEvents, placedBy_cons, List.length_cons, Nat.add_comm xs.length, ← Nat.add_assoc]
    exact hrest

theorem ProcsCode.fresh {f f' : Frame} {procs : List (String × Block)}
    (h : ProcsCode assembly fs n f procs m f' es) : n ≤ m ∧ Fresh n m (placedBy es) := by
  induction h with
  | nil => exact ⟨Nat.le_refl _, .nil⟩
  | @cons n m k f f' p consts vars inner rest body cs ds g label hl hg hs hr ih =>
    obtain ⟨hle, hbody⟩ := hs.fresh
    obtain ⟨hle', hrest⟩ := ih
    subst hl
    have hcells := cellEvents_fresh (n + 1) (vars.getD [])
    have hlabel : Fresh n (n + 1) [procLabel assembly n p] := .single _ (by omega) (by omega)
    have hhead : Fresh n (n + 1 + (vars.getD []).length)
        (placedBy (cellEvents assembly (n + 1) (vars.getD [])) ++ [procLabel assembly n p]) :=
      hcells.append hlabel (.inr (Nat.le_refl _)) (by omega) (by omega) (by omega) (by omega)
    have hall := hhead.trans (hbody.trans hrest hle hle') (by omega) (by omega)
    refine ⟨by omega, ?_⟩
    rw [List.append_assoc] at hall
    rw [placedBy_cons, placedBy_append, placedBy_cons, placedBy_append, placedBy_cons]
    exact hall

/-- a program places the label of its main part and fresh labels -/
theorem ProgramCode.placed_perm {p : Program} {f : Frame} (h : ProgramCode assembly p m f es) :
    ∃ ls, (placedBy es).Perm ("main" :: ls) ∧ Fresh 0 m ls := by
  cases h with
  | @mk k m f consts vars procs body cs ds hp hs =>
    obtain ⟨hle, hprocs⟩ := hp.fresh
    obtain ⟨hle', hbody⟩ := hs.fresh
    have hcells := cellEvents_fresh 0 (vars.getD [])
    rw [Nat.zero_add] at hcells
    have hfirst := hcells.trans hprocs (Nat.zero_le _) hle
    refine ⟨_, ?_, hfirst.trans hbody (by omega) hle'⟩
    rw [placedBy_cons, placedBy_append, placedBy_append, placedBy_cons, placedBy_append]
    show (_ ++ (_ ++ "main" :: (_ ++ []))).Perm _
    rw [List.append_nil, ← List.append_assoc]
    exact List.perm_middle

/-- **No label of a program is placed twice.** -/
theorem ProgramCode.nodup {p : Program} {f : Frame} (h : ProgramCode assembly p m f es) :
    (placedBy es).Nodup := by
  obtain ⟨ls, hperm, hls⟩ := h.placed_perm
  refine hperm.nodup_iff.2 (List.nodup_cons.2 ⟨fun hmem => ?_, hls.nodup⟩)
  obtain ⟨hint, j, -, -, hj⟩ := hls.serial _ hmem
  exact serialLabel_ne_main hint j hj.symm

/-- **Labels of a program are told apart by their numbers.** -/
theorem ProgramCode.eq_of_sameNumber {p : Program} {f : Frame} (h : ProgramCode assembly p m f es)
    {l k : String} (hl : l ∈ placedBy es) (hk : k ∈ placedBy es) (hlk : SameNumber l k) :
    l = k := by
  obtain ⟨ls, hperm, hls⟩ := h.placed_perm
  obtain ⟨hint, hint', n, rfl, rfl⟩ := hlk
  have hmem : ∀ {hint}, serialLabel hint n ∈ placedBy es → serialLabel hint n ∈ ls := fun hl =>
    (List.mem_cons.1 (hperm.mem_iff.1 hl)).resolve_left (serialLabel_ne_main _ n)
  exact hls.eq_of_sameNumber (hmem hl) (hmem hk) ⟨hint, hint', n, rfl, rfl⟩

theorem ProgramCode.serial {p : Program} {f : Frame} (h : ProgramCode assembly p m f es) :
    ∀ l ∈ placedBy es, l = "main" ∨ ∃ hint n, l = serialLabel hint n := by
  obtain ⟨ls, hperm, hls⟩ := h.placed_perm
  intro l hl
  rcases List.mem_cons.1 (hperm.mem_iff.1 hl) with rfl | hl
  · exact .inl rfl
  · obtain ⟨hint, n, -, -, rfl⟩ := hls.serial l hl
    exact .inr ⟨hint, n, rfl⟩

/-! ## programs jump to labels that they place -/

/-- the labels that an event places and that control can come to -/
def Event.targets : Event → List String
  | .cell _ => []
  | e => e.placed

def targetsOf (es : List Event) : List String := es.flatMap Event.targets

@[simp] theorem targetsOf_cons (e : Event) (es : List Event) :
    targetsOf (e :: es) = e.targets ++ targetsOf es := rfl

@[simp] theorem targetsOf_append (es ds : List Event) :
    targetsOf (es ++ ds) = targetsOf es ++ targetsOf ds := List.flatMap_append

theorem targetsOf_ifThen (cs ds : List Event) (l : String) :
    targetsOf (cs ++ .branch l :: (ds ++ [.join l])) = targetsOf cs ++ (targetsOf ds ++ [l]) := by
  rw [targetsOf_append, targetsOf_cons, targetsOf_append]
  rfl

theorem targetsOf_whileDo (top bottom : String) (cs ds : List Event) :
    targetsOf (.loopOpen top bottom ::
        (loopEvents assembly top bottom cs ds ++ [.loopClose top bottom])) =
      top :: (targetsOf cs ++ (targetsOf ds ++ [bottom])) := by
  simp [targetsOf, Event.targets, Event.placed, loopEvents, assembly]

theorem targetsOf_cells (T : Target) (n : Nat) (ys : List String) :
    targetsOf (cellEvents T n ys) = [] := by
  induction ys generalizing n with
  | nil => rfl
  | cons y ys ih => exact ih (n + 1)

theorem targetsOf_procedure (T : Target) (n : Nat) (p label : String) (ys : List String)
    (cs ds : List Event) :
    targetsOf (.procHead p :: (cellEvents T n ys ++ .procOpen label ::
      (cs ++ .procClose label :: ds))) = label :: (targetsOf cs ++ targetsOf ds) := by
  rw [targetsOf_cons, targetsOf_append, targetsOf_cells, targetsOf_cons, targetsOf_append,
    targetsOf_cons]
  rfl

theorem targetsOf_program (T : Target) (n : Nat) (ys : List String) (cs ds : List Event) :
    targetsOf (.start :: (cellEvents T n ys ++ (cs ++ .mainOpen :: (ds ++ [.mainClose])))) =
      targetsOf cs ++ "main" :: targetsOf ds := by
  rw [targetsOf_cons, targetsOf_append, targetsOf_cells, targetsOf_append, targetsOf_cons,
    targetsOf_append]
  show targetsOf cs ++ "main" :: (targetsOf ds ++ []) = _
  rw [List.append_nil]

theorem targetsOf_subset (es : List Event) : targetsOf es ⊆ placedBy es := by
  intro l hl
  obtain ⟨e, he, hl⟩ := List.mem_flatMap.1 hl
  refine mem_placedBy he ?_
  cases e with
  | cell _ => cases hl
  | _ => exact hl

/-- without storage, control can come to all labels -/
theorem targetsOf_eq (h : ∀ l, .cell l ∉ es) : targetsOf es = placedBy es := by
  induction es with
  | nil => rfl
  | cons e es ih =>
    rw [targetsOf_cons, placedBy_cons, ih fun l hl => h l (List.mem_cons_of_mem _ hl)]
    cases e with
    | cell l => exact absurd List.mem_cons_self (h l)
    | _ => rfl

/-- all jumps go to labels among `ls` -/
def JumpsIn (ls : List String) (es : List Event) : Prop := ∀ e ∈ es, ∀ l ∈ e.jumps, l ∈ ls

section Jumps

variable {ls : List String} {ds : List Event} {e : Event}

theorem JumpsIn.nil : JumpsIn ls [] := nofun

theorem JumpsIn.append (h : JumpsIn ls es) (h' : JumpsIn ls ds) : JumpsIn ls (es ++ ds) :=
  List.forall_mem_append.2 ⟨h, h'⟩

theorem JumpsIn.cons (h : ∀ l ∈ e.jumps, l ∈ ls) (h' : JumpsIn ls es) : JumpsIn ls (e :: es) :=
  List.forall_mem_cons.2 ⟨h, h'⟩

theorem jumpsIn_straight (h : ∀ e ∈ es, e.Straight) : JumpsIn ls es := by
  intro e he l hl
  rw [(h e he).2] at hl
  cases hl

theorem jumpsIn_cells (T : Target) (n : Nat) (xs : List String) :
    JumpsIn ls (cellEvents T n xs) := by
  induction xs generalizing n with
  | nil => exact .nil
  | cons x xs ih => exact .cons nofun (ih (n + 1))

mutual

theorem StatementCode.jumps_targets : ∀ {n m : Nat} {s : Statement} {es : List Event},
    StatementCode assembly fs n s m es → targetsOf es ⊆ ls → JumpsIn ls es
  | _, _, _, _, .assign he _, _ => (jumpsIn_straight he.straight).append (.cons nofun .nil)
  | _, _, _, _, .call _, _ => .cons nofun .nil
  | _, _, _, _, .block hs, hls => hs.jumps_targets hls
  | n, _, _, _, .ifThen hc hs, hls => by
    rw [targetsOf_ifThen, List.append_subset, List.append_subset] at hls
    obtain ⟨-, hbody, hjoin⟩ := hls
    exact (jumpsIn_straight hc.straight).append (.cons hjoin
      ((hs.jumps_targets hbody).append (.cons nofun .nil)))
  | n, _, _, _, @StatementCode.whileDo _ _ _ _ _ _ cs ds top bottom _ _ hc hs, hls => by
    rw [targetsOf_whileDo, List.cons_subset, List.append_subset, List.append_subset] at hls
    obtain ⟨htop, -, hbody, hbottom⟩ := hls
    have hinner : JumpsIn ls (.loopExit top bottom :: ds) := .cons hbottom (hs.jumps_targets hbody)
    have hclose : JumpsIn ls [.loopClose top bottom] :=
      .cons (List.forall_mem_singleton.2 htop) .nil
    exact .cons nofun (((jumpsIn_straight hc.straight).append hinner).append hclose)
  | _, _, _, _, .print he, _ => (jumpsIn_straight he.straight).append (.cons nofun .nil)

theorem StatementsCode.jumps_targets : ∀ {n m : Nat} {ss : List Statement} {es : List Event},
    StatementsCode assembly fs n ss m es → targetsOf es ⊆ ls → JumpsIn ls es
  | _, _, _, _, .nil, _ => .nil
  | _, _, _, _, .cons hs hr, hls => by
    rw [targetsOf_append, List.append_subset] at hls
    exact (hs.jumps_targets hls.1).append (hr.jumps_targets hls.2)

end

theorem ProcsCode.jumps_targets {f f' : Frame} {procs : List (String × Block)}
    (h : ProcsCode assembly fs n f procs m f' es) (hls : targetsOf es ⊆ ls) : JumpsIn ls es := by
  induction h with
  | nil => exact .nil
  | cons _ _ hs _ ih =>
    rw [targetsOf_procedure, List.cons_subset, List.append_subset] at hls
    obtain ⟨-, hbody, hrest⟩ := hls
    exact .cons nofun ((jumpsIn_cells _ _ _).append (.cons nofun
      ((hs.jumps_targets hbody).append (.cons nofun (ih hrest)))))

/-- **Programs jump to labels that control can come to.** -/
theorem ProgramCode.jumps_targets {p : Program} {f : Frame} (h : ProgramCode assembly p m f es) :
    JumpsIn (targetsOf es) es := by
  suffices hall : ∀ {ls}, targetsOf es ⊆ ls → JumpsIn ls es from hall (List.Subset.refl _)
  intro ls hls
  cases h with
  | mk hprocs hs =>
    rw [targetsOf_program, List.append_subset, List.cons_subset] at hls
    obtain ⟨hcs, hmain, hds⟩ := hls
    exact .cons (List.forall_mem_singleton.2 hmain) ((jumpsIn_cells _ _ _).append
      ((hprocs.jumps_targets hcs).append
        (.cons nofun ((hs.jumps_targets hds).append (.cons nofun .nil)))))

theorem ProgramCode.jumps_placed {p : Program} {f : Frame} (h : ProgramCode assembly p m f es) :
    JumpsIn (placedBy es) es :=
  fun e he l hl => targetsOf_subset es (h.jumps_targets e he l hl)

end Jumps

end Pl0Kit.Generator
