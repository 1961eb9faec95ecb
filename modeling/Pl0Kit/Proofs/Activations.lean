import Pl0Kit.Proofs.Safety

/-!
# Calls and the storage of a procedure

Storage is one cell for each variable, whatever calls are active.  `Enclosed xs a z cell` describes
a part of the code, from the place `a` to the place `z`, that control enters only by calls of `a`
and by returns, and outside of which nothing is saved in the cell.

* `During P calls s`    the steps that follow `s`, each made by a machine that satisfies `P`;
* `Enclosed.step`       a step outside such a part keeps the cell and does not get in;
* `StaticCell`          what the cell of a variable holds in the course of a run
                        (`Enclosed.staticCell`).
-/

namespace Pl0Kit.Machine

variable {xs pre c : List Item} {J : Bool → String → Prop} {ks calls calls' : List Int}
  {s s' : State} {b : Bool}

/-! ## what the next step does -/

/-- the operand of the instruction that the next step performs -/
def State.operand? (s : State) : Option Value :=
  s.offset.toInt?.bind fun n => (s.cell (.int (n + 1))).toOption

/-- the next step saves in the cell `c` -/
def State.Saves (s : State) (c : Nat) : Prop := s.opcode? = some .save ∧ s.operand? = some (.int c)

def State.Enters (s : State) (a : Nat) : Prop := s.opcode? = some .call ∧ s.operand? = some (.int a)

/-- the machine is in front of the instruction `x`, and `c` are the items behind it -/
structure At (xs : List Item) (s : State) (pre : List Item) (x : Item) (c : List Item) : Prop where
  split : xs = pre ++ x :: c
  offset : s.offset = .int (size pre)
  opcode : s.opcode? = x.opcode?
  word : ∀ o w, x = .opWord o w → s.operand? = some (operand xs w)
  loaded : Loaded xs s.memory

theorem view_operand? {mem : List Value} {ts : List Int} {out w : String} {o : Opcode}
    (hm : Loaded xs mem) (hxs : xs = pre ++ .opWord o w :: c) :
    (view xs mem (.opWord o w :: c) ts ks out).operand? = some (operand xs w) := by
  have hcell : (view xs mem (.opWord o w :: c) ts ks out).cell (.int ((size pre : Int) + 1)) =
      .ok (operand xs w) := cell_eq (hm.opWord hxs).2
  rw [State.operand?, view, address_eq hxs]
  show ((view xs mem (.opWord o w :: c) ts ks out).cell (.int ((size pre : Int) + 1))).toOption = _
  rw [hcell]
  rfl

theorem Running.at (h : Running xs J ks s) : ∃ pre x c, At xs s pre x c := by
  obtain ⟨p, pre, x, c, o, mem, ts, out, hxs, hx, hm, -, -, -, rfl⟩ := h.settled
  refine ⟨pre, x, c, hxs, ?_, (view_opcode? hm hxs hx).trans hx.symm, ?_, hm⟩
  · rw [view, address_eq hxs]
  · rintro o w rfl
    exact view_operand? hm hxs

/-- the place that a jump or call goes to is the place of an instruction -/
theorem Running.target (h : Running xs J ks s) {l : String} (hl : s.offset = operand xs l) :
    ∃ n : Nat, operand xs l = .int n := by
  obtain ⟨pre, x, c, hat⟩ := h.at
  exact ⟨size pre, hl.symm.trans hat.offset⟩

theorem At.ne_of_call {l : String} {n a : Nat} (h : At xs s pre (.opWord .call l) c)
    (hn : operand xs l = .int n) (hcall : ¬ s.Enters a) : n ≠ a := by
  rintro rfl
  refine hcall ⟨h.opcode, ?_⟩
  rw [h.word _ _ rfl, hn]

theorem Running.move (hclosed : Closed xs J) (h : Running xs J ks s)
    (hne : s.opcode? ≠ some .halt) :
    ∃ s' pre x c, s.step = (.ok true, s') ∧ Running xs J (s.callsAfter ks) s' ∧ At xs s pre x c ∧
      Move xs c s s' ks x (s.callsAfter ks) := by
  obtain ⟨p, pre, x, c, o, mem, ts, out, hxs, hx, hm, hfits, heffect, hks, rfl⟩ := h.settled
  have hopcode : (view xs mem (x :: c) ts ks out).opcode? = some o := view_opcode? hm hxs hx
  have ho : o ≠ .halt := by
    rintro rfl
    exact hne hopcode
  obtain ⟨s', hstep, hrun, hmove⟩ := hfits.step hclosed hm hxs heffect hks hx ho
  refine ⟨s', pre, x, c, hstep, hrun, ⟨hxs, ?_, hopcode.trans hx.symm, ?_, hm⟩, hmove⟩
  · rw [view, address_eq hxs]
  · rintro o w rfl
    exact view_operand? hm hxs

theorem Running.step_move (hclosed : Closed xs J) (h : Running xs J ks s)
    (hne : s.opcode? ≠ some .halt) (hstep : s.step = (.ok b, s')) :
    Running xs J (s.callsAfter ks) s' ∧
      ∃ pre x c, At xs s pre x c ∧ Move xs c s s' ks x (s.callsAfter ks) := by
  obtain ⟨s'', pre, x, c, hstep', hrun, hat, hmove⟩ := h.move hclosed hne
  rw [hstep] at hstep'
  cases hstep'
  exact ⟨hrun, pre, x, c, hat, hmove⟩

/-! ## saves -/

/-- only saves change a cell -/
theorem Move.memory {x : Item} {cell : Nat} (h : Move xs c s s' ks x calls) (hat : At xs s pre x c)
    (hsave : ¬ s.Saves cell) : s'.memory[cell]? = s.memory[cell]? := by
  cases h with
  | next _ _ _ hmem _ | jump _ hmem _ | call _ hmem _ | ret _ hmem _ => rw [hmem]
  | @save l a n st hl _ _ _ hmem _ =>
    have hne : a ≠ cell := by
      rintro rfl
      refine hsave ⟨hat.opcode, ?_⟩
      rw [hat.word _ _ rfl, hl]
    rw [hmem, List.getElem?_set_ne hne]

theorem Move.saved {x : Item} {cell : Nat} (h : Move xs c s s' ks x calls) (hat : At xs s pre x c)
    (hsave : s.Saves cell) : (∃ l, x = .opWord .save l ∧ operand xs l = .int cell) ∧
      s'.memory[cell]? = s.stack.head? := by
  have hopcode : x.opcode? = some .save := hat.opcode.symm.trans hsave.1
  cases h with
  | next hx ho _ _ _ =>
    obtain rfl := Option.some.inj (hx.symm.trans hopcode)
    cases ho
  | jump ho _ _ =>
    cases hopcode
    rcases ho with ho | ho <;> cases ho
  | call _ _ _ | ret _ _ _ => cases hopcode
  | @save l a n st hl ha hstack _ hmem _ =>
    have hcell : operand xs l = .int cell := Option.some.inj ((hat.word _ _ rfl).symm.trans hsave.2)
    obtain rfl : a = cell := Int.ofNat.inj (Value.int.inj (hl.symm.trans hcell))
    obtain ⟨k, hk⟩ := hat.loaded.data a ha
    refine ⟨⟨l, rfl, hcell⟩, ?_⟩
    rw [hmem, hstack, List.getElem?_set_self (List.getElem?_eq_some_iff.1 hk).1]
    rfl

/-! ## stretches of a run -/

/-- the machines that follow `s` with its active calls, as long as each that makes a step satisfies
`P` -/
inductive During (P : List Int → State → Prop) (calls : List Int) (s : State) :
    List Int → State → Prop
  | refl : During P calls s calls s
  | step {calls' : List Int} {s' s'' : State} {b : Bool} : During P calls s calls' s' →
      P calls' s' →
      s'.opcode? ≠ some .halt → s'.step = (.ok b, s'') → During P calls s (s'.callsAfter calls') s''

section During

variable {P : List Int → State → Prop}

theorem During.trans {calls'' : List Int} {s'' : State} (h : During P calls s calls' s')
    (h' : During P calls' s' calls'' s'') : During P calls s calls'' s'' := by
  induction h' with
  | refl => exact h
  | step _ hP hne hstep ih => exact ih.step hP hne hstep

theorem Reached.during {code : List Value} (h : Reached code calls s)
    (h' : During P calls s calls' s') : Reached code calls' s' := by
  induction h' with
  | refl => exact h
  | step _ _ hne hstep ih => exact ih.step hne hstep

variable [∀ ks m, Decidable (P ks m)]

/-- the machine after `n` steps and its active calls, if the steps succeed and make up such a
stretch -/
def walk (P : List Int → State → Prop) [∀ ks m, Decidable (P ks m)] :
    Nat → List Int → State → Option (List Int × State)
  | 0, calls, s => some (calls, s)
  | n + 1, calls, s =>
    match s.step with
    | (.ok _, s') =>
      if P calls s ∧ s.opcode? ≠ some .halt then walk P n (s.callsAfter calls) s' else none
    | _ => none

theorem during_of_walk {n : Nat} (h : walk P n calls s = some (calls', s')) :
    During P calls s calls' s' := by
  induction n generalizing calls s with
  | zero =>
    cases h
    exact .refl
  | succ n ih =>
    rw [walk] at h
    split at h
    · rename_i b s₁ hstep
      split at h
      · rename_i hP
        exact (During.refl.step hP.1 hP.2 hstep).trans (ih h)
      · cases h
    · cases h

end During

/-- what steps keep holds in the whole stretch -/
theorem During.invariant {P I : List Int → State → Prop} (hclosed : Closed xs J)
    (hkeeps : ∀ {ks s s' pre x c}, Running xs J ks s → I ks s → P ks s → At xs s pre x c →
      Move xs c s s' ks x (s.callsAfter ks) → Running xs J (s.callsAfter ks) s' →
      I (s.callsAfter ks) s')
    (hrun : Running xs J calls s) (hI : I calls s) (h : During P calls s calls' s') :
    I calls' s' := by
  suffices hboth : Running xs J calls' s' ∧ I calls' s' from hboth.2
  induction h with
  | refl => exact ⟨hrun, hI⟩
  | step _ hP hne hstep ih =>
    obtain ⟨hrun', pre, x, c, hat, hmove⟩ := ih.1.step_move hclosed hne hstep
    exact ⟨hrun', hkeeps ih.1 ih.2 hP hat hmove hrun'⟩

theorem During.unsaved {cell : Nat} (hclosed : Closed xs J) (hrun : Running xs J calls s)
    (h : During (fun _ m => ¬ m.Saves cell) calls s calls' s') :
    s'.memory[cell]? = s.memory[cell]? :=
  h.invariant (I := fun _ m => m.memory[cell]? = s.memory[cell]?) hclosed
    (fun _ hI hP hat hmove _ => (hmove.memory hat hP).trans hI) hrun rfl

/-! ## enclosed parts -/

def Outside (a z : Nat) (n : Int) : Prop := n < a ∨ z < n

/-- control gets in between `a` and `z` by calls of `a` and returns only, and saves in the cell
there only -/
structure Enclosed (xs : List Item) (a z cell : Nat) : Prop where
  start : 0 < a
  next : ∀ {pre x c o}, xs = pre ++ x :: c → x.opcode? = some o → Rest xs c →
    Outside a z (size pre) → Outside a z (address xs c)
  jump : ∀ {pre o l c} {n : Nat}, xs = pre ++ .opWord o l :: c → o = .je ∨ o = .jmp →
    Outside a z (size pre) → operand xs l = .int n → Outside a z n
  call : ∀ {pre l c} {n : Nat}, xs = pre ++ .opWord .call l :: c → operand xs l = .int n → n ≠ a →
    Outside a z n
  save : ∀ {pre l c}, xs = pre ++ .opWord .save l :: c → operand xs l = .int cell →
    ¬ Outside a z (size pre)

/-- the machine is outside, and so are the places where calls above `base` go on -/
structure Apart (a z : Nat) (base ks : List Int) (s : State) : Prop where
  away : ∃ n, s.offset = .int n ∧ Outside a z n
  above : ∃ inner, ks = inner ++ base ∧ ∀ k ∈ inner, Outside a z k

section Enclosed

variable {a z cell : Nat} {base : List Int}

/-- **A step outside keeps the cell.**  It stays outside, or it returns from the last call above
`base`. -/
theorem Enclosed.step {x : Item} (h : Enclosed xs a z cell) (hs : Apart a z base ks s)
    (hcall : ¬ s.Enters a) (hat : At xs s pre x c) (hmove : Move xs c s s' ks x calls)
    (hrun : Running xs J calls s') :
    s'.memory[cell]? = s.memory[cell]? ∧
      (Apart a z base calls s' ∨ ∃ k, ks = base ∧ base = k :: calls) := by
  have hout : Outside a z (size pre) := by
    obtain ⟨n, hn, hout⟩ := hs.away
    rw [hat.offset] at hn
    cases hn
    exact hout
  have hsave : ¬ s.Saves cell := by
    intro hsave
    obtain ⟨⟨l, rfl, hl⟩, -⟩ := hmove.saved hat hsave
    exact h.save hat.split hl hout
  refine ⟨hmove.memory hat hsave, ?_⟩
  obtain ⟨inner, hks, hinner⟩ := hs.above
  cases hmove with
  | next hx _ hrest _ hoffset =>
    exact .inl ⟨⟨_, hoffset, h.next hat.split hx hrest hout⟩, inner, hks, hinner⟩
  | save _ _ _ hrest _ hoffset =>
    exact .inl ⟨⟨_, hoffset, h.next hat.split rfl hrest hout⟩, inner, hks, hinner⟩
  | jump ho _ hoffset =>
    obtain ⟨n, hn⟩ := hrun.target hoffset
    exact .inl ⟨⟨n, hoffset.trans hn, h.jump hat.split ho hout hn⟩, inner, hks, hinner⟩
  | call hrest _ hoffset =>
    obtain ⟨n, hn⟩ := hrun.target hoffset
    have hout' := h.call hat.split hn (hat.ne_of_call hn hcall)
    refine .inl ⟨⟨n, hoffset.trans hn, hout'⟩, address xs c :: inner, ?_, ?_⟩
    · rw [hks]
      rfl
    · exact List.forall_mem_cons.2 ⟨h.next hat.split rfl hrest hout, hinner⟩
  | @ret k _ hk _ hoffset =>
    cases inner with
    | nil => exact .inr ⟨k, hks, hks.symm.trans hk⟩
    | cons k' inner =>
      obtain ⟨hout', hinner⟩ := List.forall_mem_cons.1 hinner
      obtain ⟨rfl, rfl⟩ := List.cons.inj (hks.symm.trans hk)
      exact .inl ⟨⟨_, hoffset, hout'⟩, inner, rfl, hinner⟩

/-- a call of another part leads outside -/
theorem Enclosed.called {x : Item} (h : Enclosed xs a z cell) (hop : s.opcode? = some .call)
    (hcall : ¬ s.Enters a) (hat : At xs s pre x c) (hmove : Move xs c s s' ks x calls)
    (hrun : Running xs J calls s') :
    s'.memory = s.memory ∧ (∃ k, calls = k :: ks) ∧ Apart a z calls calls s' := by
  have hopcode : x.opcode? = some .call := hat.opcode.symm.trans hop
  cases hmove with
  | next hx ho _ _ _ =>
    obtain rfl := Option.some.inj (hx.symm.trans hopcode)
    cases ho
  | jump ho _ _ =>
    cases hopcode
    rcases ho with ho | ho <;> cases ho
  | save _ _ _ _ _ _ | ret _ _ _ => cases hopcode
  | @call l _ hmem hoffset =>
    obtain ⟨n, hn⟩ := hrun.target hoffset
    exact ⟨hmem, ⟨_, rfl⟩, ⟨n, hoffset.trans hn, h.call hat.split hn (hat.ne_of_call hn hcall)⟩,
      [], rfl, List.forall_mem_nil _⟩

/-- until `a` is called the machine stays outside -/
theorem Enclosed.fresh (h : Enclosed xs a z cell) (hclosed : Closed xs J) (hrun : Running xs J [] s)
    (hs : Apart a z [] [] s) (hduring : During (fun _ m => ¬ m.Enters a) [] s calls' s') :
    s'.memory[cell]? = s.memory[cell]? := by
  refine (hduring.invariant (I := fun ks m => m.memory[cell]? = s.memory[cell]? ∧ Apart a z [] ks m)
    hclosed ?_ hrun ⟨rfl, hs⟩).1
  intro ks s s' pre x c _ hI hP hat hmove hrun'
  obtain ⟨hmem, hs'⟩ := h.step hI.2 hP hat hmove hrun'
  refine ⟨hmem.trans hI.1, hs'.resolve_right ?_⟩
  rintro ⟨k, -, hk⟩
  cases hk

/-- a call of another part keeps the cell, if `a` is not called before it returns -/
theorem Enclosed.kept {k : Int} (h : Enclosed xs a z cell) (hclosed : Closed xs J)
    (hrun : Running xs J (k :: calls) s) (hs : Apart a z (k :: calls) (k :: calls) s)
    (hduring : During (fun ks m => calls.length < ks.length ∧ ¬ m.Enters a)
      (k :: calls) s calls' s') :
    s'.memory[cell]? = s.memory[cell]? := by
  refine (hduring.invariant (I := fun ks m => m.memory[cell]? = s.memory[cell]? ∧
    (calls.length < ks.length → Apart a z (k :: calls) ks m)) hclosed ?_ hrun ⟨rfl, fun _ => hs⟩).1
  intro ks s s' pre x c _ hI hP hat hmove hrun'
  obtain ⟨hmem, hs'⟩ := h.step (hI.2 hP.1) hP.2 hat hmove hrun'
  refine ⟨hmem.trans hI.1, fun hlen => hs'.resolve_right ?_⟩
  rintro ⟨k', -, hk⟩
  rw [(List.cons.inj hk).2] at hlen
  exact Nat.lt_irrefl _ hlen

end Enclosed

/-! ## cells of variables -/

/-- the cell `c` of a variable that belongs to the procedure with its code from `a` to `z` -/
structure StaticCell (code : List Value) (a z c : Nat) : Prop where
  /-- it holds 0 until something is saved in it -/
  unsaved : ∀ {calls s}, During (fun _ m => ¬ m.Saves c) [] { memory := code } calls s →
    s.memory[c]? = some (.int 0)
  /-- and then what was saved last -/
  saved : ∀ {calls s b s₁ calls' s'}, Reached code calls s → s.Saves c → s.step = (.ok b, s₁) →
    During (fun _ m => ¬ m.Saves c) (s.callsAfter calls) s₁ calls' s' →
    s'.memory[c]? = s.stack.head?
  /-- nothing but the procedure itself saves in it -/
  owned : ∀ {calls s}, Reached code calls s → s.Saves c →
    ∃ n : Nat, s.offset = .int n ∧ a ≤ n ∧ n ≤ z
  /-- it holds 0 until the procedure is called for the first time, and on this entry -/
  fresh : ∀ {calls s}, During (fun _ m => ¬ m.Enters a) [] { memory := code } calls s →
    s.memory[c]? = some (.int 0) ∧
      ∀ {b s₁}, s.Enters a → s.step = (.ok b, s₁) → s₁.memory[c]? = some (.int 0)
  /-- a call keeps it up to its return, if the procedure is not called again before that -/
  kept : ∀ {calls s b s₁ calls' s'}, Reached code calls s → s.opcode? = some .call → ¬ s.Enters a →
    s.step = (.ok b, s₁) → During (fun ks m => calls.length < ks.length ∧ ¬ m.Enters a)
      (s.callsAfter calls) s₁ calls' s' → s'.memory[c]? = s.memory[c]?

theorem ne_halt {o : Opcode} (h : s.opcode? = some o) (ho : o ≠ .halt) :
    s.opcode? ≠ some .halt := by
  rw [h, Ne, Option.some.injEq]
  exact ho

theorem Enclosed.staticCell {a z cell : Nat} (h : Enclosed xs a z cell) (hclosed : Closed xs J)
    (hstart : Fits xs J false 0 xs) (hdata : DataAt xs cell) : StaticCell (code xs) a z cell := by
  have hfirst : Running xs J [] { memory := code xs } := Reached.start.running hclosed hstart
  refine ⟨?_, ?_, ?_, ?_, ?_⟩
  · intro calls s hs
    exact (hs.unsaved hclosed hfirst).trans (code_data hdata)
  · intro calls s b s₁ calls' s' hs hsave hstep hduring
    obtain ⟨hrun, pre, x, c, hat, hmove⟩ :=
      (hs.running hclosed hstart).step_move hclosed (ne_halt hsave.1 nofun) hstep
    exact (hduring.unsaved hclosed hrun).trans (hmove.saved hat hsave).2
  · intro calls s hs hsave
    obtain ⟨s', pre, x, c, -, -, hat, hmove⟩ :=
      (hs.running hclosed hstart).move hclosed (ne_halt hsave.1 nofun)
    obtain ⟨⟨l, rfl, hl⟩, -⟩ := hmove.saved hat hsave
    have hin := h.save hat.split hl
    rw [Outside] at hin
    exact ⟨size pre, hat.offset, by omega, by omega⟩
  · intro calls s hs
    have hapart : Apart a z [] [] { memory := code xs } :=
      ⟨⟨0, rfl, .inl (Int.natCast_pos.2 h.start)⟩, [], rfl, List.forall_mem_nil _⟩
    have hzero := (h.fresh hclosed hfirst hapart hs).trans (code_data hdata)
    refine ⟨hzero, fun {b s₁} hcall hstep => ?_⟩
    have hrun := (Reached.start.during hs).running hclosed hstart
    obtain ⟨-, pre, x, c, hat, hmove⟩ := hrun.step_move hclosed (ne_halt hcall.1 nofun) hstep
    exact (hmove.memory hat fun hsave => nomatch hcall.1.symm.trans hsave.1).trans hzero
  · intro calls s b s₁ calls' s' hs hop hcall hstep hduring
    obtain ⟨hrun, pre, x, c, hat, hmove⟩ :=
      (hs.running hclosed hstart).step_move hclosed (ne_halt hop nofun) hstep
    obtain ⟨hmem, ⟨k, hk⟩, hapart⟩ := h.called hop hcall hat hmove hrun
    rw [hk] at hrun hapart hduring
    rw [← hmem]
    exact h.kept hclosed hrun hapart hduring

end Pl0Kit.Machine
