import Pl0Kit.Proofs.Activations
import Pl0Kit.Proofs.NestedProcedures
import Pl0Kit.Proofs.Numbering

/-!
# Variables of procedures

The variables of a procedure are cells in front of its code, one for all its activations.  An
activation finds in them what the last one left, and a caller finds what a recursive call left.
`locals_are_static` says so for every run of compiled code, and says when they hold 0 on entry and
are kept by a call nevertheless: the first time that the procedure is called, and when it is not
called again before the call returns.

* `Portion`    the place of a procedure in a listing;
* `Detached`   the events before and after a procedure jump and save past it.
-/

namespace Pl0Kit

namespace Machine

/-! ## a procedure in a listing -/

variable {xs pre c : List Item} {x : Item}

theorem Item.size_pos {o : Opcode} (h : x.opcode? = some o) : 0 < x.size := by
  cases x with
  | op _ | opWord _ _ => exact Nat.succ_pos _
  | note | label _ | zero => cases h

/-- code that control can go on with has no comment in front of its first instruction -/
theorem Rest.size_pos {d : List Item} (h : Rest xs (d ++ .note :: c)) : 0 < size d := by
  obtain ⟨J, p, k, h⟩ := h
  induction d with
  | nil =>
    obtain ⟨y, c', hc, hy⟩ := h.head
    obtain ⟨rfl, -⟩ := List.cons.inj hc
    rcases hy with ⟨o, ho⟩ | ⟨l, hl, -⟩
    · cases ho
    · cases hl
  | cons z d ih =>
    obtain ⟨y, c', hc, hy⟩ := h.head
    obtain ⟨rfl, rfl⟩ := List.cons.inj hc
    rw [size_cons]
    rcases hy with ⟨o, ho⟩ | ⟨l, -, hrest⟩
    · have := Item.size_pos ho
      omega
    · have := ih hrest
      omega

/-- an item of two pieces of code is in one of them -/
theorem split_append {a b : List Item} (h : a ++ b = pre ++ x :: c) :
    (∃ d, a = pre ++ x :: d ∧ c = d ++ b) ∨ ∃ d, pre = a ++ d ∧ b = d ++ x :: c := by
  rcases List.append_eq_append_iff.1 h with ⟨d, hpre, hb⟩ | ⟨d, ha, hx⟩
  · exact .inr ⟨d, hpre, hb⟩
  · cases d with
    | nil => exact .inr ⟨[], by rw [ha, List.append_nil, List.append_nil], hx.symm⟩
    | cons y d =>
      obtain ⟨rfl, rfl⟩ := List.cons.inj hx
      exact .inl ⟨d, ha, rfl⟩

/-- the first return at or behind the place `a` is at `z` -/
def ReturnsAt (text : String) (a z : Nat) : Prop :=
  InstructionAt text z .ret ∧ a ≤ z ∧ ∀ n, InstructionAt text n .ret → a ≤ n → z ≤ n

/-- a procedure between the items `before` and `after`, with the cells `ds`, the label `l` and the
body `q`: its code starts at `a` and its return is at `z` -/
structure Portion (xs before ds : List Item) (l : String) (q after : List Item)
    (a z : Nat) : Prop where
  items : xs = before ++ ((.note :: ds) ++ ((.label l :: (q ++ [.op .ret])) ++ after))
  entry : a = size before + size ds
  exit : z = a + size q
  cells : ∀ x ∈ ds, x.opcode? = none
  body : ∀ x ∈ q, x.opcode? ≠ some .ret

namespace Portion

variable {before ds q after : List Item} {l : String} {a z : Nat} {o : Opcode}

theorem find (h : Portion xs before ds l q after a z) (hxs : xs = pre ++ x :: c) :
    (∃ d rest, before = pre ++ x :: d ∧ c = d ++ .note :: rest) ∨ x ∈ .note :: ds ∨
      (∃ d e, .label l :: (q ++ [.op .ret]) = d ++ x :: e ∧ size pre = a + size d) ∨
        x ∈ after ∧ z < size pre := by
  have hitems := h.items
  rw [hxs] at hitems
  rcases split_append hitems.symm with ⟨d, hb, hc⟩ | ⟨d, rfl, hd⟩
  · exact .inl ⟨d, _, hb, hc⟩
  rcases split_append hd with ⟨e, he, -⟩ | ⟨e, rfl, he⟩
  · refine .inr (.inl ?_)
    rw [he]
    exact List.mem_append_right _ List.mem_cons_self
  have hentry : size (before ++ (.note :: ds ++ e)) = a + size e := by
    rw [h.entry, size_append, size_append, size_cons, Item.size]
    omega
  rcases split_append he with ⟨k, hk, -⟩ | ⟨k, rfl, hk⟩
  · exact .inr (.inr (.inl ⟨e, k, hk, hentry⟩))
  · refine .inr (.inr (.inr ⟨?_, ?_⟩))
    · rw [hk]
      exact List.mem_append_right _ List.mem_cons_self
    · rw [hentry, h.exit, size_append, size_cons, size_append, size_cons, Item.size, Item.size,
        size_nil]
      omega

theorem opcode?_of_mem (h : Portion xs before ds l q after a z) (hx : x ∈ .note :: ds) :
    x.opcode? = none := by
  rcases List.mem_cons.1 hx with rfl | hx
  · rfl
  · exact h.cells x hx

theorem not_outside (h : Portion xs before ds l q after a z) {d e : List Item}
    (hd : .label l :: (q ++ [.op .ret]) = d ++ x :: e) (hpos : 0 < x.size)
    (hsize : size pre = a + size d) : ¬ Outside a z (size pre) := by
  have hle : size (.label l :: (q ++ [.op .ret])) = size q + 1 := by simp [Item.size]
  have hexit := h.exit
  rw [hd, size_append, size_cons] at hle
  rw [Outside]
  omega

/-- instructions at places outside are not in the procedure -/
theorem mem_of_outside (h : Portion xs before ds l q after a z) (hxs : xs = pre ++ x :: c)
    (hx : x.opcode? = some o) (hout : Outside a z (size pre)) : x ∈ before ∨ x ∈ after := by
  rcases h.find hxs with ⟨d, -, rfl, -⟩ | hmem | ⟨d, e, hd, hsize⟩ | ⟨hmem, -⟩
  · exact .inl (List.mem_append_right _ List.mem_cons_self)
  · rw [h.opcode?_of_mem hmem] at hx
    cases hx
  · exact absurd hout (h.not_outside hd (Item.size_pos hx) hsize)
  · exact .inr hmem

/-- control that comes from outside and need not be called does not get in -/
theorem outside (h : Portion xs before ds l q after a z) (hxs : xs = pre ++ x :: c)
    (hx : x ∉ .note :: ds)
    (hq : x ∉ .label l :: (q ++ [.op .ret]) ∨ 0 < x.size ∧ Outside a z (size pre))
    (hrest : Rest xs c) : Outside a z (address xs c) := by
  have haddress : address xs c = size pre + x.size := by
    rw [address, hxs, size_append, size_cons]
    omega
  rw [haddress]
  rcases h.find hxs with ⟨d, rest, hb, rfl⟩ | hmem | ⟨d, e, hd, hsize⟩ | ⟨-, hlt⟩
  -- the comment in front of the procedure is not where control goes on, so an instruction is before
  -- it
  · have hpos := hrest.size_pos
    have hentry := h.entry
    rw [hb, size_append, size_cons] at hentry
    left
    omega
  · exact absurd hmem hx
  · rcases hq with hq | ⟨hpos, hout⟩
    · rw [hd] at hq
      exact absurd (List.mem_append_right _ List.mem_cons_self) hq
    · exact absurd hout (h.not_outside hd hpos hsize)
  · right
    omega

/-- the first return behind the entry is that of the procedure -/
theorem ret_le (h : Portion xs before ds l q after a z) (hxs : xs = pre ++ x :: c)
    (hx : x.opcode? = some .ret) (hle : a ≤ size pre) : z ≤ size pre := by
  rcases h.find hxs with ⟨d, -, hb, -⟩ | hmem | ⟨d, e, hd, hsize⟩ | ⟨-, hlt⟩
  · have hpos := Item.size_pos hx
    have hentry := h.entry
    rw [hb, size_append, size_cons] at hentry
    omega
  · rw [h.opcode?_of_mem hmem] at hx
    cases hx
  · rcases split_append (a := .label l :: q) (b := [.op .ret]) hd with ⟨k, hk, -⟩ | ⟨k, rfl, -⟩
    · have hmem : x ∈ .label l :: q := hk ▸ List.mem_append_right _ List.mem_cons_self
      rcases List.mem_cons.1 hmem with rfl | hmem
      · cases hx
      · exact absurd hx (h.body x hmem)
    · rw [hsize, h.exit, size_append, size_cons, Item.size]
      omega
  · exact Nat.le_of_lt hlt

theorem label (h : Portion xs before ds l q after a z) :
    ∃ pre c, xs = pre ++ .label l :: c ∧ size pre = a := by
  refine ⟨before ++ .note :: ds, q ++ .op .ret :: after, ?_, ?_⟩
  · simp [h.items]
  · rw [h.entry, size_append, size_cons, Item.size, Nat.zero_add]

theorem returnsAt {text : String} (h : Portion xs before ds l q after a z)
    (hlines : asmLines text.toList = xs.map Item.line) : ReturnsAt text a z := by
  refine ⟨?_, by rw [h.exit]; exact Nat.le_add_right _ _, fun n hn hle => ?_⟩
  · have hxs : xs = (before ++ (.note :: ds ++ .label l :: q)) ++ .op .ret :: after := by
      simp [h.items]
    have hsize : size (before ++ (.note :: ds ++ .label l :: q)) = z := by
      rw [h.exit, h.entry]
      simp [Item.size, Nat.add_assoc]
    exact hsize ▸ instructionAt hlines hxs rfl
  · obtain ⟨args, hmem⟩ := hn
    obtain ⟨pre, x, c, hxs, hx⟩ := mem_linesOf hlines hmem
    obtain ⟨rfl, hline⟩ := Prod.mk.inj hx
    refine h.ret_le hxs ?_ hle
    rw [← opcode?_line, ← hline]
    exact ofName?_name .ret

end Portion

end Machine

namespace Generator

open Machine

/-! ## events around a procedure -/

/-- the events before and after a procedure do not save in its cells, and jump past it -/
structure Detached (es before : List Event) (name : String) (cells : List Event) (l : String)
    (cs after : List Event) : Prop where
  events : es =
    before ++ (.procHead name :: (cells ++ .procOpen l :: (cs ++ .procClose l :: after)))
  starts : .start ∈ before
  cells : ∀ e ∈ cells, ∃ k, e = .cell k
  inner : ∀ e ∈ cs, e.Inner
  sound : ∀ e ∈ before ++ after, e.Sound (.cell · ∈ before ++ after) (.procOpen · ∈ es) ∨ e.Border
  jumps : JumpsIn (targetsOf (before ++ after)) (before ++ after)

/-- the code of procedures, taken apart at one of them -/
theorem ProcsCode.split {fs : Frames} {n m : Nat} {f f' : Frame} {procs : List (String × Block)}
    {es : List Event} {q : Numbered × List Numbered} (h : ProcsCode assembly fs n f procs m f' es)
    (hq : q ∈ numberedProcedures n procs) :
    ∃ k k' f₁ first rest name vars es₁ cs es₂,
      q = (⟨.proc, name, k + 1⟩, numberedVars (k + 1) vars) ∧
      ProcsCode assembly fs n f first k f₁ es₁ ∧ (∀ e ∈ cs, e.Inner) ∧
      ProcsCode assembly fs k' (f₁.declare (.str name) (.str (procLabel assembly k name)))
        rest m f' es₂ ∧
      es = es₁ ++ .procHead name :: (cellEvents assembly (k + 1) vars ++
        .procOpen (procLabel assembly k name) ::
          (cs ++ .procClose (procLabel assembly k name) :: es₂)) := by
  induction h with
  | nil => cases hq
  | @cons n m k f f' p consts vars inner rest body cs ds g label hl hg hs hrest ih =>
    subst hl hg
    rcases List.mem_cons.1 hq with rfl | hq
    · exact ⟨n, m, f, [], rest, p, vars.getD [], [], cs, ds, rfl, .nil, hs.inner, hrest, rfl⟩
    · have hcount : n + 1 + (Block.mk consts vars inner body).variables.length +
          (Block.mk consts vars inner body).body.labels = m := hs.counted.1.symm
      rw [hcount] at hq
      obtain ⟨j, j', f₁, first, rest', name, ys, es₁, cs', es₂, rfl, hfirst, hinner, hrest', rfl⟩ :=
        ih hq
      refine ⟨j, j', f₁, (p, .mk consts vars inner body) :: first, rest', name, ys, _, cs',
        es₂, rfl, .cons rfl rfl hs hfirst, hinner, hrest', ?_⟩
      simp only [List.cons_append, List.append_assoc]

theorem cell_of_cellEvents {T : Target} {n : Nat} {ys : List String} :
    ∀ e ∈ cellEvents T n ys, ∃ k, e = .cell k := by
  induction ys generalizing n with
  | nil => exact List.forall_mem_nil _
  | cons y ys ih => exact List.forall_mem_cons.2 ⟨⟨_, rfl⟩, ih⟩

theorem mem_cellEvents {T : Target} {n : Nat} {ys : List String} :
    ∀ d ∈ numberedVars n ys, .cell (labelOf T d) ∈ cellEvents T n ys := by
  induction ys generalizing n with
  | nil => exact List.forall_mem_nil _
  | cons y ys ih =>
    exact List.forall_mem_cons.2 ⟨List.mem_cons_self, fun d hd => List.mem_cons_of_mem _ (ih d hd)⟩

variable {p : Program} {m : Nat} {f : Frame} {es : List Event}

/-- **Procedures of a program are detached from what is around them.** -/
theorem ProgramCode.detached (h : ProgramCode assembly p m f es) {q : Numbered × List Numbered}
    (hq : q ∈ p.procedures) : ∃ before name cells cs after,
      Detached es before name cells (labelOf assembly q.1) cs after ∧
        ∀ d ∈ q.2, .cell (labelOf assembly d) ∈ cells := by
  cases h with
  | @mk k m f consts vars procs body cs ds hprocs hs =>
    obtain ⟨j, j', f₁, first, rest, name, ys, es₁, bs, es₂, rfl, hfirst, hinner, hrest, rfl⟩ :=
      hprocs.split hq
    let before := .start :: (cellEvents assembly 0 (vars.getD []) ++ es₁)
    let after := es₂ ++ .mainOpen :: (ds ++ [.mainClose])
    refine ⟨before, name, cellEvents assembly (j + 1) ys, bs, after,
      ⟨?_, List.mem_cons_self, cell_of_cellEvents, hinner, ?_, ?_⟩, mem_cellEvents⟩
    · simp [before, after, labelOf, procLabel]
    -- outside the procedure its label is in scope, but its variables are not
    · suffices hall : ∀ {D P : String → Prop}, (∀ l, .cell l ∈ before ++ after → D l) →
          (∀ l, .procOpen l ∈ es₁ ++ .procOpen (procLabel assembly j name) :: es₂ → P l) →
            ∀ e ∈ before ++ after, e.Sound D P ∨ e.Border by
        refine hall (fun _ => id) fun l hl => ?_
        rw [List.mem_append, List.mem_cons] at hl
        rcases hl with hl | hl | hl <;> simp [hl]
      intro D P hD hP
      have hglobals : Scoped D P (declared assembly 0 {} consts vars) :=
        Scoped.empty.declared consts fun l hl => hD l (by simp [before, hl])
      obtain ⟨hsound₁, hf₁⟩ := hfirst.sound (fun l hl => hD l (by simp [before, hl]))
        (fun l hl => hP l (by simp [hl])) (List.forall_mem_singleton.2 hglobals)
      have hdeclare : Scoped D P (f₁.declare (.str name) (.str (procLabel assembly j name))) :=
        hf₁.declare _ (hP _ (by simp))
      obtain ⟨hsound₂, hf⟩ := hrest.sound (fun l hl => hD l (by simp [after, hl]))
        (fun l hl => hP l (by simp [hl])) (List.forall_mem_singleton.2 hdeclare)
      have hmain := hs.sound (List.forall_mem_singleton.2 hf)
      refine List.forall_mem_append.2 ⟨List.forall_mem_cons.2 ⟨.inr trivial, ?_⟩, ?_⟩
      · exact List.forall_mem_append.2 ⟨fun e he => .inr (border_cells _ _ _ e he), hsound₁⟩
      · exact List.forall_mem_append.2 ⟨hsound₂, List.forall_mem_cons.2 ⟨.inr trivial,
          List.forall_mem_append.2 ⟨fun e he => .inl (hmain e he),
            List.forall_mem_singleton.2 (.inr trivial)⟩⟩⟩
    · suffices hall : ∀ {ls}, targetsOf (before ++ after) ⊆ ls → JumpsIn ls (before ++ after) from
        hall (List.Subset.refl _)
      intro ls hls
      have hevents : before ++ after = .start :: (cellEvents assembly 0 (vars.getD []) ++
          ((es₁ ++ es₂) ++ .mainOpen :: (ds ++ [.mainClose]))) := by
        simp [before, after]
      rw [hevents, targetsOf_program, targetsOf_append, List.append_subset, List.append_subset,
        List.cons_subset] at hls
      obtain ⟨⟨h₁, h₂⟩, hmain, hds⟩ := hls
      have hbefore : JumpsIn ls before := .cons (List.forall_mem_singleton.2 hmain)
        ((jumpsIn_cells _ _ _).append (hfirst.jumps_targets h₁))
      exact hbefore.append ((hrest.jumps_targets h₂).append
        (.cons (List.forall_mem_nil _)
          ((hs.jumps_targets hds).append (.cons (List.forall_mem_nil _) .nil))))

/-! ## the code around a procedure -/

section Detached

variable {before cells cs after : List Event} {name l : String} {a z : Nat}

theorem Detached.mem (hd : Detached es before name cells l cs after) {e : Event}
    (he : e ∈ before ++ after ∨ e ∈ cells ∨ e ∈ cs ∨ e = .procOpen l) : e ∈ es := by
  rw [hd.events]
  rw [List.mem_append] at he
  rcases he with (he | he) | he | he | he <;> simp [he]

/-- labels of other parts are different from those of the procedure -/
theorem Detached.apart (hd : Detached es before name cells l cs after) (hnd : (placedBy es).Nodup) :
    ∀ k ∈ placedBy (before ++ after), k ∉ placedBy cells ∧ k ≠ l ∧ k ∉ placedBy cs := by
  intro k hk
  have hparts : placedBy es =
      placedBy before ++ ((placedBy cells ++ l :: placedBy cs) ++ placedBy after) := by
    simp [hd.events, Event.placed]
  rw [hparts, List.nodup_append] at hnd
  obtain ⟨-, hrest, hbefore⟩ := hnd
  obtain ⟨-, -, hafter⟩ := List.nodup_append.1 hrest
  have hmid : k ∉ placedBy cells ++ l :: placedBy cs := by
    intro hmid
    rw [placedBy_append] at hk
    rcases List.mem_append.1 hk with hk | hk
    · exact hbefore k hk k (List.mem_append_left _ hmid) rfl
    · exact hafter k hmid k hk rfl
  rw [List.mem_append, List.mem_cons, not_or, not_or] at hmid
  exact hmid

theorem Detached.portion (hd : Detached es before name cells l cs after)
    (hbody : ∀ x ∈ itemsOf cs, x.opcode? ≠ some .ret) :
    Portion (itemsOf es) (itemsOf before) (itemsOf cells) l (itemsOf cs) (itemsOf after)
      (size (itemsOf before) + size (itemsOf cells))
      (size (itemsOf before) + size (itemsOf cells) + size (itemsOf cs)) := by
  refine ⟨?_, rfl, rfl, fun x hx => ?_, hbody⟩
  · simp [hd.events, Event.items]
  · obtain ⟨e, he, hx⟩ := List.mem_flatMap.1 hx
    obtain ⟨k, rfl⟩ := hd.cells e he
    rcases List.mem_cons.1 hx with rfl | hx
    · rfl
    · obtain rfl := List.mem_singleton.1 hx
      rfl

theorem Detached.wordFor (hd : Detached es before name cells l cs after) {o : Opcode} {w : String}
    (hx : .opWord o w ∈ itemsOf before ∨ .opWord o w ∈ itemsOf after) :
    WordFor (.cell · ∈ before ++ after) (.procOpen · ∈ es) (· ∈ targetsOf (before ++ after))
      o w := by
  rw [← List.mem_append, ← itemsOf_append] at hx
  obtain ⟨e, he, hx⟩ := List.mem_flatMap.1 hx
  have hword := Event.wordFor (hd.sound e he) hx
  cases o with
  | jmp | je => exact hd.jumps e he w hword
  | _ => exact hword

/-- a label that control can come to stands for the place of code that it can go on with -/
theorem ProgramCode.target (h : ProgramCode assembly p m f es) (hp : p.Shaped)
    (hw : p.Within .noDivision) {k : String} (hk : k ∈ targetsOf es) :
    ∃ pre c, itemsOf es = pre ++ .label k :: c ∧
      operand (itemsOf es) k = .int (address (itemsOf es) c) ∧ Rest (itemsOf es) c := by
  obtain ⟨J, hJ, htargets, -⟩ := h.enters hp hw
  obtain ⟨q, hq⟩ := htargets k hk
  obtain ⟨pre, c, hxs, -, hc⟩ := hJ q k hq
  have hfits := hc []
  rw [List.append_nil] at hfits
  exact ⟨pre, c, hxs, h.operand_eq hp hxs, J, q, 0, hfits⟩

/-- the parts around the procedure are entered outside of it -/
theorem Detached.outside (hd : Detached es before name cells l cs after)
    (h : ProgramCode assembly p m f es) (hp : p.Shaped) (hw : p.Within .noDivision)
    (hportion : Portion (itemsOf es) (itemsOf before) (itemsOf cells) l (itemsOf cs)
      (itemsOf after) a z)
    {k : String} (hk : k ∈ targetsOf (before ++ after)) {n : Nat}
    (hn : operand (itemsOf es) k = .int n) : Outside a z n := by
  have hmem : k ∈ targetsOf es := by
    obtain ⟨e, he, hke⟩ := List.mem_flatMap.1 hk
    exact List.mem_flatMap.2 ⟨e, hd.mem (.inl he), hke⟩
  obtain ⟨pre, c, hxs, hoperand, hrest⟩ := h.target hp hw hmem
  obtain ⟨hcells, hl, hcs⟩ := hd.apart h.nodup k (targetsOf_subset _ hk)
  have hlabel : ∀ {ds : List Event}, k ∉ placedBy ds → .label k ∉ itemsOf ds := by
    intro ds hds hmem
    rw [← mem_labelsOf, labelsOf_itemsOf] at hmem
    exact hds hmem
  have hout : Outside a z (address (itemsOf es) c) := by
    refine hportion.outside hxs ?_ (.inl ?_) hrest
    · exact List.not_mem_cons_of_ne_of_not_mem nofun (hlabel hcells)
    · refine List.not_mem_cons_of_ne_of_not_mem (fun he => hl (Item.label.inj he)) ?_
      rw [List.mem_append, not_or]
      exact ⟨hlabel hcs, fun hret => nomatch List.mem_singleton.1 hret⟩
  rw [hoperand] at hn
  rwa [Value.int.inj hn] at hout

/-- a procedure is called at its label, and other procedures are called outside of it -/
theorem Detached.called (hd : Detached es before name cells l cs after) {k : String}
    (hk : .procOpen k ∈ es) : k = l ∨ k ∈ targetsOf (before ++ after) := by
  rw [hd.events] at hk
  have hplaced : ∀ {ds : List Event}, .procOpen k ∈ ds → k ∈ targetsOf ds := fun hds =>
    List.mem_flatMap.2 ⟨_, hds, List.mem_cons_self⟩
  rw [targetsOf_append, List.mem_append]
  rcases List.mem_append.1 hk with hk | hk
  · exact .inr (.inl (hplaced hk))
  rcases List.mem_append.1 ((List.mem_cons.1 hk).resolve_left nofun) with hk | hk
  · obtain ⟨k', hk'⟩ := hd.cells _ hk
    cases hk'
  rcases List.mem_cons.1 hk with hk | hk
  · exact .inl (Event.procOpen.inj hk)
  rcases List.mem_append.1 hk with hk | hk
  · exact (hd.inner _ hk).elim
  · exact .inr (.inr (hplaced ((List.mem_cons.1 hk).resolve_left nofun)))

/-- **The code of a procedure is enclosed.** -/
theorem Detached.enclosed (hd : Detached es before name cells l cs after)
    (h : ProgramCode assembly p m f es) (hp : p.Shaped) (hw : p.Within .noDivision)
    (hportion : Portion (itemsOf es) (itemsOf before) (itemsOf cells) l (itemsOf cs)
      (itemsOf after) a z)
    (hl : operand (itemsOf es) l = .int a) {k : String} {cell : Nat} (hk : .cell k ∈ cells)
    (hcell : operand (itemsOf es) k = .int cell) : Enclosed (itemsOf es) a z cell := by
  refine ⟨?_, ?_, ?_, ?_, ?_⟩
  · obtain ⟨ds, ds', hbefore⟩ := List.append_of_mem hd.starts
    rw [hportion.entry, hbefore, itemsOf_append, itemsOf_cons, size_append, size_append]
    show 0 < size (itemsOf ds) + (2 + size (itemsOf ds')) + size (itemsOf cells)
    omega
  · intro pre x c o hxs hx hrest hout
    have hnote : x ∉ .note :: itemsOf cells := by
      intro hmem
      rw [hportion.opcode?_of_mem hmem] at hx
      cases hx
    exact hportion.outside hxs hnote (.inr ⟨Item.size_pos hx, hout⟩) hrest
  · intro pre o w c n hxs ho hout hn
    have hword := hd.wordFor (hportion.mem_of_outside hxs rfl hout)
    refine hd.outside h hp hw hportion ?_ hn
    rcases ho with rfl | rfl <;> exact hword
  · intro pre w c n hxs hn hne
    have hmem : .opWord .call w ∈ itemsOf es := hxs ▸ List.mem_append_right _ List.mem_cons_self
    rcases hd.called (h.wordFor h.jumps_placed hmem) with rfl | hw'
    · rw [hl] at hn
      exact absurd (Int.ofNat.inj (Value.int.inj hn)).symm hne
    · exact hd.outside h hp hw hportion hw' hn
  · intro pre w c hxs hn hout
    have hword : .cell w ∈ before ++ after := hd.wordFor (hportion.mem_of_outside hxs rfl hout)
    obtain rfl :=
      h.cell_inj hp (hd.mem (.inl hword)) (hd.mem (.inr (.inl hk))) (hn.trans hcell.symm)
    exact (hd.apart h.nodup w (mem_placedBy hword List.mem_cons_self)).1
      (mem_placedBy hk List.mem_cons_self)

theorem Event.Sound.opcode?_ne_ret {D P : String → Prop} {e : Event} (h : e.Sound D P) :
    ∀ x ∈ e.items, x.opcode? ≠ some .ret := by
  intro x hx hret
  cases x with
  | op o =>
    cases hret
    exact h.isOpen _ hx (.inl rfl)
  | opWord o w =>
    cases hret
    exact Event.wordFor (.inl h) hx
  | note | label _ | zero => cases hret

theorem Detached.body (hd : Detached es before name cells l cs after)
    (h : ProgramCode assembly p m f es) : ∀ x ∈ itemsOf cs, x.opcode? ≠ some .ret := by
  intro x hx
  obtain ⟨e, he, hx⟩ := List.mem_flatMap.1 hx
  have hborder : ¬ e.Border := by
    have hinner := hd.inner e he
    cases e with
    | start | cell _ | procHead _ | procOpen _ | procClose _ | mainOpen | mainClose =>
      exact hinner.elim
    | _ => exact id
  have hsound := h.sound (fun _ => id) (fun _ => id) e (hd.mem (.inr (.inr (.inl he))))
  exact (hsound.resolve_right hborder).opcode?_ne_ret x hx

end Detached

end Generator

/-! ## runs of compiled code -/

section Runs

open Machine Generator

/-- **The variables of a procedure are static.**  A parsed program without division compiles to a
text in which every procedure of its block has a place, and every variable of such a procedure one
cell.  In all runs of the assembled code the cell holds 0 at first and then what was saved in it
last, and only the code of the procedure saves in it, up to the return.  It is 0 until the procedure
is called for the first time, and a call keeps it if the procedure is not called before the call
returns. -/
theorem locals_are_static {source text : String} {p : Program} {f : Frame} {r : Value} {g : Gen}
    (hparse : (parseText source).1 = .ok p) (hdiv : p.Within .noDivision)
    (hcompile : translate assembly p.toValue {} = (.ok (f, r), text, g)) :
    p.procedures.map (fun q => (q.1.name, q.2.map Numbered.name)) =
        p.block.procs.map (fun q => (q.1, q.2.variables)) ∧
      ∀ q ∈ p.procedures, ∃ a z, labelPlace? text (labelOf assembly q.1) = some a ∧
      ReturnsAt text a z ∧
        ∀ d ∈ q.2, ∃ c, labelPlace? text (labelOf assembly d) = some c ∧
          StaticCell (assemble text) a z c := by
  refine ⟨map_numberedProcedures _ _, fun q hq => ?_⟩
  have hshaped := shaped_of_parse hparse
  obtain ⟨es, hcode, rfl⟩ := program_emits hcompile
  have hlines := asmLines_program hcode hshaped
  obtain ⟨J, hclosed, hstart⟩ := hcode.closed hshaped hdiv
  obtain ⟨before, name, cells, cs, after, hd, hcells⟩ := hcode.detached hq
  have hportion := hd.portion (hd.body hcode)
  have hplace : ∀ {l} {n : Nat}, l ∈ placedBy es → operand (itemsOf es) l = .int n →
      labelPlace? (render assembly es) l = some n := by
    intro l n hl hn
    rw [labelPlace?_eq hlines]
    exact place?_of_operand (hcode.cellOf_placed hshaped l hl) hn
  obtain ⟨pre, c, hxs, hsize⟩ := hportion.label
  have hentry := hcode.operand_eq hshaped hxs
  rw [address_eq (after_label hxs).1, (after_label hxs).2, hsize] at hentry
  have hopen := hd.mem (.inr (.inr (.inr rfl)))
  refine ⟨_, _, hplace (mem_placedBy hopen List.mem_cons_self) hentry, hportion.returnsAt hlines,
    fun d hd' => ?_⟩
  have hcell := hd.mem (.inr (.inl (hcells d hd')))
  obtain ⟨k, hk, hdata⟩ := hcode.operand_cell hshaped hcell
  have henclosed := hd.enclosed hcode hshaped hdiv hportion hentry (hcells d hd') hk
  refine ⟨k, hplace (mem_placedBy hcell List.mem_cons_self) hk, ?_⟩
  rw [assemble_eq hlines]
  exact henclosed.staticCell hclosed hstart hdata

/-- `VAR n; PROCEDURE p; VAR x; …; CALL p`, where `p` sets `x` to `n + 1`, and for `n = 0` counts
`n` up, calls itself and prints `x` -/
def deepen : Program :=
  ⟨.mk none (some ["n"]) [("p", .mk none (some ["x"]) [] (.block [
    .assign "x" (.mk none (.mk (.name "n") []) [(.plus, .mk (.number 1) [])]),
    .ifThen (.compare (justName "n") .lt (justNumber 1)) (.block [
      .assign "n" (.mk none (.mk (.name "n") []) [(.plus, .mk (.number 1) [])]),
      .call "p", .print (justName "x")])]))] (.call "p")⟩

def deepenSource : String :=
  "var n; procedure p; var x; begin x := n + 1; " ++
    "if n < 1 then begin n := n + 1; call p; ! x end end; call p."

def deepenText : String :=
  "JMP main\nt_var_n_1:\n    0\n# Procedure p\nt_var_x_3:\n    0\nt_proc_p_2:\n" ++
    "\tLOAD t_var_n_1\n\tPUSH 1\n\tADD\n\tSAVE t_var_x_3\n\tLOAD t_var_n_1\n\tPUSH 1\n\tCMPLT\n" ++
    "\tJE t_if_false_4\n\tLOAD t_var_n_1\n\tPUSH 1\n\tADD\n\tSAVE t_var_n_1\n\tCALL t_proc_p_2\n" ++
    "\tLOAD t_var_x_3\n\tPRINT\n\tPOP\nt_if_false_4:\n\tRET\nmain:\n\tCALL t_proc_p_2\n\tHALT\n"

def deepenFrame : Frame where
  vars := [(.str "n", .str "t_var_n_1")]
  procs := [(.str "p", .str "t_proc_p_2")]

set_option maxRecDepth 4000 in
theorem deepen_parses : (parseText deepenSource).1 = .ok deepen := by with_unfolding_all rfl

set_option maxRecDepth 4000 in
theorem deepen_compiles : translate assembly deepen.toValue {} =
    (.ok (deepenFrame, .none), deepenText, { labels := 4 }) := by with_unfolding_all rfl

def deepenCode (n x : Int) : List Value :=
  [16, 32, n, x, 6, 2, 10, 1, 45, 7, 3, 6, 2, 10, 1, 30, 22, 31, 6, 2, 10, 1, 45, 7, 2, 17, 4, 6, 3,
    50, 11, 18, 17, 4, 1].map .int

def deepenEvents : List Event :=
  [.start, .cell "t_var_n_1", .procHead "p", .cell "t_var_x_3", .procOpen "t_proc_p_2",
    .load "t_var_n_1", .number "1", .add, .save "t_var_x_3", .load "t_var_n_1", .number "1",
    .compare "LT", .branch "t_if_false_4", .load "t_var_n_1", .number "1", .add, .save "t_var_n_1",
    .call "t_proc_p_2", .load "t_var_x_3", .print, .join "t_if_false_4", .procClose "t_proc_p_2",
    .mainOpen, .call "t_proc_p_2", .mainClose]

theorem deepen_lines : asmLines deepenText.toList = (itemsOf deepenEvents).map Item.line := by
  have htext : deepenText = render assembly deepenEvents := by decide +kernel
  have hn : Machine.Plain "t_var_n_1".toList := plain_of_all (by decide +kernel) (by decide +kernel)
  have hx : Machine.Plain "t_var_x_3".toList := plain_of_all (by decide +kernel) (by decide +kernel)
  have hp : Machine.Plain "t_proc_p_2".toList :=
    plain_of_all (by decide +kernel) (by decide +kernel)
  have hjoin : Machine.Plain "t_if_false_4".toList :=
    plain_of_all (by decide +kernel) (by decide +kernel)
  have hone : Machine.Plain "1".toList := plain_of_all (by decide +kernel) (by decide +kernel)
  rw [htext]
  refine asmLines_render ?_
  simp only [deepenEvents, List.forall_mem_cons, List.not_mem_nil, false_implies, implies_true,
    and_true, Event.Plain, hn, hx, hp, hjoin, hone, true_and]
  exact ⟨by decide +kernel, .lt, rfl⟩

theorem deepen_assembles : assemble deepenText = deepenCode 0 0 := by
  rw [assemble_eq deepen_lines]
  with_unfolding_all rfl

theorem deepen_walk : walk (fun _ _ => True) 14 [] { memory := deepenCode 0 0 } =
    some ([34], ⟨deepenCode 1 1, [.int 34], .int 25, ""⟩) := by with_unfolding_all rfl

theorem deepen_returns :
    walk (fun ks _ => 1 < ks.length) 9 [27, 34] ⟨deepenCode 1 1, [.int 27, .int 34], .int 4, ""⟩ =
    some ([34], ⟨deepenCode 1 2, [.int 34], .int 27, ""⟩) := by with_unfolding_all rfl

theorem deepen_places : labelPlace? deepenText "t_proc_p_2" = some 4 ∧
    labelPlace? deepenText "t_var_x_3" = some 3 := by
  rw [labelPlace?_eq deepen_lines, labelPlace?_eq deepen_lines]
  decide +kernel

/-- a recursive procedure: its variable is the cell 3, and its code is at the places from 4 on -/
theorem deepen_static : (parseText deepenSource).1 = .ok deepen ∧
    translate assembly deepen.toValue {} = (.ok (deepenFrame, .none), deepenText, { labels := 4 }) ∧
    deepen.procedures = [(⟨.proc, "p", 2⟩, [⟨.var, "x", 3⟩])] ∧
    ∃ z, ReturnsAt deepenText 4 z ∧ StaticCell (deepenCode 0 0) 4 z 3 := by
  have hwithin : deepen.Within .noDivision := by
    simp [deepen, Program.Within, Block.Within, Block.procsWithin, Statement.Within,
      Statement.Within.allWithin, Condition.Within, Expr.Within, Expr.tailWithin, Term.Within,
      Term.tailWithin, Factor.Within, Fragment.noDivision, justName, justNumber]
  obtain ⟨-, hall⟩ := locals_are_static deepen_parses hwithin deepen_compiles
  obtain ⟨a, z, ha, hz, hcells⟩ := hall (⟨.proc, "p", 2⟩, [⟨.var, "x", 3⟩]) List.mem_cons_self
  obtain ⟨c, hc, hstatic⟩ := hcells ⟨.var, "x", 3⟩ List.mem_cons_self
  obtain rfl : a = 4 := Option.some.inj (ha.symm.trans deepen_places.1)
  obtain rfl : c = 3 := Option.some.inj (hc.symm.trans deepen_places.2)
  rw [deepen_assembles] at hstatic
  exact ⟨deepen_parses, deepen_compiles, rfl, z, hz, hstatic⟩

/-- **Activations share their variables.**  When the procedure calls itself, the new activation
finds the 1 of its caller in `x`, and the caller finds the 2 of the called activation when the call
returns. -/
theorem activations_share_locals : (parseText deepenSource).1 = .ok deepen ∧
    translate assembly deepen.toValue {} = (.ok (deepenFrame, .none), deepenText, { labels := 4 }) ∧
    labelPlace? deepenText "t_proc_p_2" = some 4 ∧ labelPlace? deepenText "t_var_x_3" = some 3 ∧
    ∃ calls s s₁ s', Reached (assemble deepenText) calls s ∧ s.Enters 4 ∧ s.step = (.ok true, s₁) ∧
      s₁.offset = .int 4 ∧ s₁.memory[3]? = some (.int 1) ∧
      During (fun ks _ => calls.length < ks.length) (s.callsAfter calls) s₁ calls s' ∧
      s'.offset = .int 27 ∧ s.memory[3]? = some (.int 1) ∧ s'.memory[3]? = some (.int 2) := by
  refine ⟨deepen_parses, deepen_compiles, deepen_places.1, deepen_places.2, ?_⟩
  rw [deepen_assembles]
  exact ⟨[34], _, _, _, Reached.start.during (during_of_walk deepen_walk), ⟨rfl, rfl⟩, rfl,
    rfl, rfl, during_of_walk deepen_returns, rfl, rfl, rfl⟩

end Runs

end Pl0Kit
