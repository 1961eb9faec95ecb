import Pl0Kit.Machine.Step
import Pl0Kit.Proofs.Assembled
import Pl0Kit.Proofs.Outcome

/-!
# Steps of the machine on assembled code

`spot xs mem c st out` is the machine that runs the code `xs` with the items `c` still before it and
the stack `st`, and `view xs mem c ts ks out` the one with the temporaries `ts` on top of the return
places `ks`. There is one lemma for each instruction (and one for all binary operations) that says
which machine follows which; labels and comments take no step, so the views before and after them
are the same machine.
-/

namespace Pl0Kit.Machine

open Act

/-! ## parts of a step -/

section Parts

variable {mem st : List Value} {n : Int} {out : String}

theorem place_eq {s : State} {a : Nat} (h : a < s.memory.length) : s.place (.int a) = .ok a := by
  have h₀ : ¬ (a : Int) < 0 := by omega
  have h₁ : (0 : Int) ≤ a ∧ (a : Int) < s.memory.length := by omega
  simp only [State.place, Value.toInt?, if_neg h₀, if_pos h₁]
  rfl

theorem cell_eq {s : State} {a : Nat} {v : Value} (h : s.memory[a]? = some v) :
    s.cell (.int a) = .ok v := by
  have hlt : a < s.memory.length := (List.getElem?_eq_some_iff.1 h).1
  simp only [State.cell, place_eq hlt, bind, Except.bind, h]

theorem exec_next : exec next ⟨mem, st, .int n, out⟩ = (.ok (), ⟨mem, st, .int (n + 1), out⟩) := rfl

theorem exec_fetch {a : Nat} {v : Value} (h : mem[a]? = some v) :
    exec fetch ⟨mem, st, .int a, out⟩ = (.ok v, ⟨mem, st, .int a, out⟩) := by
  have hcell : (⟨mem, st, .int a, out⟩ : State).cell (.int a) = .ok v := cell_eq h
  rw [fetch, exec_then (exec_get _)]
  show ((⟨mem, st, .int a, out⟩ : State).cell (.int a), _) = _
  rw [hcell]

theorem exec_popCell {v o : Value} :
    exec popCell ⟨mem, v :: st, o, out⟩ = (.ok v, ⟨mem, st, o, out⟩) := rfl

/-- a step is what the fetched instruction does, and a look at the place after it -/
theorem step_eq {s s' : State} {o : Opcode} {b : Bool}
    (hfetch : s.cell s.offset = .ok (.int o.code)) (hperform : exec (perform o) s = (.ok (), s'))
    (hinside : s'.inside = .ok b) : s.step = (.ok b, s') := by
  have hdecode : exec (lift (decode (.int o.code))) s = (.ok o, s) := by
    show (decode (.int o.code), s) = _
    simp only [decode, Value.toInt?, Opcode.ofCode?_code]
  have hfetched : exec fetch s = (.ok (.int o.code), s) := by
    rw [fetch, exec_then (exec_get _)]
    show (s.cell s.offset, s) = _
    rw [hfetch]
  show exec Machine.step s = _
  rw [Machine.step, exec_then hfetched, exec_then hdecode, exec_then hperform,
    exec_then (exec_get _)]
  show (s'.inside, s') = _
  rw [hinside]

theorem inside_eq {a : Nat} (h : a < mem.length) {o : String} :
    (⟨mem, st, .int a, o⟩ : State).inside = .ok true := by
  have h₁ : (0 : Int) ≤ a ∧ (a : Int) < mem.length := by omega
  simp [State.inside, Value.toInt?, h₁]

end Parts

/-! ## views -/

/-- the place of the items `c` at the end of `xs` -/
def address (xs c : List Item) : Int := size xs - size c

/-- the machine that runs `xs` and has `c` before it -/
def view (xs : List Item) (mem : List Value) (c : List Item) (ts ks : List Int) (out : String) :
    State :=
  ⟨mem, (ts ++ ks).map .int, .int (address xs c), out⟩

/-- the same with any stack -/
def spot (xs : List Item) (mem : List Value) (c : List Item) (st : List Value) (out : String) :
    State :=
  ⟨mem, st, .int (address xs c), out⟩

variable {xs pre c : List Item} {mem st : List Value} {ts ks : List Int} {out : String} {o : Opcode}
  {w : String}

theorem address_eq (h : xs = pre ++ c) : address xs c = size pre := by
  rw [address, h, size_append]
  omega

theorem view_start (xs : List Item) (mem : List Value) :
    view xs mem xs [] [] "" = { memory := mem } := by
  rw [view, address_eq (List.nil_append xs).symm]
  rfl

@[simp] theorem view_label (l : String) :
    view xs mem (.label l :: c) ts ks out = view xs mem c ts ks out := by
  simp [view, address, Item.size]

theorem spot_inside (hm : Loaded xs mem) (hxs : xs = pre ++ c) (hc : 0 < size c) :
    (spot xs mem c st out).inside = .ok true := by
  have hlt : size pre < mem.length := by
    rw [hm.length, hxs, size_append]
    omega
  rw [spot, address_eq hxs]
  exact inside_eq hlt

theorem spot_fetch {x : Item} (hxs : xs = pre ++ x :: c)
    (hop : mem[size pre]? = some (.int o.code)) :
    (spot xs mem (x :: c) st out).cell (spot xs mem (x :: c) st out).offset =
      .ok (.int o.code) := by
  rw [spot, address_eq hxs]
  exact cell_eq hop

theorem view_inside (hm : Loaded xs mem) (hxs : xs = pre ++ c) (hc : 0 < size c) :
    (view xs mem c ts ks out).inside = .ok true := spot_inside hm hxs hc

theorem view_fetch {x : Item} (hxs : xs = pre ++ x :: c)
    (hop : mem[size pre]? = some (.int o.code)) :
    (view xs mem (x :: c) ts ks out).cell (view xs mem (x :: c) ts ks out).offset =
      .ok (.int o.code) := spot_fetch hxs hop

/-- binary operations on integers, with the top of the stack as their first argument -/
def Opcode.binary? : Opcode → Option (Int → Int → Int)
  | .mul => some fun a b => a * b
  | .add => some fun a b => a + b
  | .sub => some fun a b => a - b
  | .cmplt => some fun a b => if b < a then 1 else 0
  | .cmplte => some fun a b => if b ≤ a then 1 else 0
  | .cmpe => some fun a b => if b = a then 1 else 0
  | .cmpne => some fun a b => if b = a then 0 else 1
  | .cmpgte => some fun a b => if a ≤ b then 1 else 0
  | .cmpgt => some fun a b => if a < b then 1 else 0
  | _ => none

theorem exec_binary {f : Value → Value → Except Fault Value} {a b v : Value} {st : List Value}
    {n : Int} (hf : f a b = .ok v) :
    exec (binary f) ⟨mem, a :: b :: st, .int n, out⟩ =
      (.ok (), ⟨mem, v :: st, .int (n + 1), out⟩) := by
  rw [binary, exec_then exec_next, exec_then exec_popCell, exec_then exec_popCell]
  show exec ((ExceptT.mk (pure (f a b)) : StepM Value) >>= pushCell) _ = _
  rw [hf]
  rfl

theorem exec_ordered (p : Ordering → Bool) (a b n : Int) (st : List Value) :
    exec (comparison (ordered p)) ⟨mem, .int a :: .int b :: st, .int n, out⟩ =
      (.ok (), ⟨mem, .int (if p (compare b a) then 1 else 0) :: st, .int (n + 1), out⟩) :=
  exec_binary rfl

theorem compare_int (a b : Int) :
    compare a b = if a < b then .lt else if a = b then .eq else .gt := rfl

theorem perform_binary {f : Int → Int → Int} (h : o.binary? = some f) (a b n : Int)
    (st : List Value) :
    exec (perform o) ⟨mem, .int a :: .int b :: st, .int n, out⟩ =
      (.ok (), ⟨mem, .int (f a b) :: st, .int (n + 1), out⟩) := by
  have horder : ∀ (p : Ordering → Bool) (q : Prop) [Decidable q], (p (compare b a) = true ↔ q) →
      exec (comparison (ordered p)) ⟨mem, .int a :: .int b :: st, .int n, out⟩ =
        (.ok (), ⟨mem, .int (if q then 1 else 0) :: st, .int (n + 1), out⟩) := by
    intro p q _ hq
    rw [exec_ordered]
    simp only [hq]
  cases o <;> cases h
  case mul | add | sub => exact exec_binary rfl
  case cmplt =>
    refine horder _ _ ?_
    rw [compare_int]
    grind
  case cmplte =>
    refine horder _ _ ?_
    rw [compare_int]
    grind
  case cmpgte =>
    refine horder _ _ ?_
    rw [compare_int]
    grind
  case cmpgt =>
    refine horder _ _ ?_
    rw [compare_int]
    grind
  case cmpe =>
    refine exec_binary ?_
    show Except.ok (Value.int (if (b == a) = true then 1 else 0)) = _
    simp only [beq_iff_eq]
  case cmpne =>
    refine exec_binary ?_
    show Except.ok (Value.int (if (!(b == a)) = true then 1 else 0)) = _
    by_cases hab : b = a <;> simp [hab]

theorem after_op (hxs : xs = pre ++ .op o :: c) : xs = (pre ++ [.op o]) ++ c := by
  rw [hxs, List.append_assoc]
  rfl

/-- an instruction of one cell that goes on with the next one -/
theorem step_op (hm : Loaded xs mem) (hxs : xs = pre ++ .op o :: c) (hc : 0 < size c)
    {st' : List Value} {out' : String}
    (h : exec (perform o) ⟨mem, st, .int (size pre), out⟩ =
      (.ok (), ⟨mem, st', .int ((size pre : Int) + 1), out'⟩)) :
    (spot xs mem (.op o :: c) st out).step = (.ok true, spot xs mem c st' out') := by
  refine step_eq (spot_fetch hxs (hm.op hxs)) ?_ (spot_inside hm (after_op hxs) hc)
  rw [spot, spot, address_eq hxs, address_eq (after_op hxs), size_append]
  exact h

/-- a binary operation -/
theorem spot_binary (hm : Loaded xs mem) {f : Int → Int → Int} (h : o.binary? = some f)
    (hxs : xs = pre ++ .op o :: c) (hc : 0 < size c) (a b : Int) :
    (spot xs mem (.op o :: c) (.int a :: .int b :: st) out).step =
      (.ok true, spot xs mem c (.int (f a b) :: st) out) :=
  step_op hm hxs hc (perform_binary h a b _ _)

theorem step_binary (hm : Loaded xs mem) {f : Int → Int → Int} (h : o.binary? = some f)
    (hxs : xs = pre ++ .op o :: c) (hc : 0 < size c) (a b : Int) :
    (view xs mem (.op o :: c) (a :: b :: ts) ks out).step =
      (.ok true, view xs mem c (f a b :: ts) ks out) :=
  spot_binary hm h hxs hc a b

theorem step_print (hm : Loaded xs mem) (hxs : xs = pre ++ .op .print :: c) (hc : 0 < size c)
    (n : Int) :
    (view xs mem (.op .print :: c) (n :: ts) ks out).step =
      (.ok true, view xs mem c (n :: ts) ks (out ++ (Text.intText n ++ "\n"))) :=
  step_op hm hxs hc rfl

theorem step_pop (hm : Loaded xs mem) (hxs : xs = pre ++ .op .pop :: c) (hc : 0 < size c)
    (n : Int) :
    (view xs mem (.op .pop :: c) (n :: ts) ks out).step = (.ok true, view xs mem c ts ks out) :=
  step_op hm hxs hc rfl

theorem step_ret (hm : Loaded xs mem) {pre' c' : List Item} (hxs : xs = pre ++ .op .ret :: c)
    (hxs' : xs = pre' ++ c') (hc : 0 < size c') :
    (view xs mem (.op .ret :: c) [] (address xs c' :: ks) out).step =
      (.ok true, view xs mem c' [] ks out) :=
  step_eq (view_fetch hxs (hm.op hxs)) rfl (view_inside hm hxs' hc)

theorem step_halt (hm : Loaded xs mem) (hxs : xs = pre ++ .op .halt :: c) :
    (view xs mem (.op .halt :: c) ts ks out).step =
      (.ok false, ⟨mem, (ts ++ ks).map .int, .int (-1), out⟩) :=
  step_eq (view_fetch hxs (hm.op hxs)) rfl rfl

/-! ## instructions with an operand -/

section Operand

variable {pre' c' : List Item} {n : Int} {a : Nat}

theorem after_opWord (hxs : xs = pre ++ .opWord o w :: c) : xs = (pre ++ [.opWord o w]) ++ c := by
  rw [hxs, List.append_assoc]
  rfl

/-- a step on an instruction with an operand: the instruction is fetched at its place, and acts
where the next cell is its operand -/
theorem step_operand (hm : Loaded xs mem) (hxs : xs = pre ++ .opWord o w :: c) {s : State}
    (hperform : (∀ st, exec fetch ⟨mem, st, .int ((size pre : Int) + 1), out⟩ =
        (.ok (operand xs w), ⟨mem, st, .int ((size pre : Int) + 1), out⟩)) →
      exec (perform o) ⟨mem, st, .int (size pre), out⟩ = (.ok (), s))
    (hinside : s.inside = .ok true) :
    (spot xs mem (.opWord o w :: c) st out).step = (.ok true, s) := by
  obtain ⟨hop, harg⟩ := hm.opWord hxs
  refine step_eq (spot_fetch hxs hop) ?_ hinside
  rw [spot, address_eq hxs]
  exact hperform fun st => exec_fetch harg

/-- the place after an instruction with an operand -/
theorem address_after (hxs : xs = pre ++ .opWord o w :: c) :
    address xs c = (size pre : Int) + 1 + 1 := by
  rw [address_eq (after_opWord hxs), size_append]
  rfl

theorem spot_push (hm : Loaded xs mem) (hw : operand xs w = .int n)
    (hxs : xs = pre ++ .opWord .push w :: c) (hc : 0 < size c) :
    (spot xs mem (.opWord .push w :: c) st out).step =
      (.ok true, spot xs mem c (.int n :: st) out) := by
  refine step_operand hm hxs (fun hfetch => ?_) (spot_inside hm (after_opWord hxs) hc)
  rw [spot, address_after hxs, perform, exec_then exec_next, exec_then (hfetch _), hw]
  rfl

theorem step_push (hm : Loaded xs mem) (hw : operand xs w = .int n)
    (hxs : xs = pre ++ .opWord .push w :: c) (hc : 0 < size c) :
    (view xs mem (.opWord .push w :: c) ts ks out).step =
      (.ok true, view xs mem c (n :: ts) ks out) := spot_push hm hw hxs hc

theorem spot_load (hm : Loaded xs mem) (hw : operand xs w = .int a) (ha : mem[a]? = some (.int n))
    (hxs : xs = pre ++ .opWord .load w :: c) (hc : 0 < size c) :
    (spot xs mem (.opWord .load w :: c) st out).step =
      (.ok true, spot xs mem c (.int n :: st) out) := by
  refine step_operand hm hxs (fun hfetch => ?_) (spot_inside hm (after_opWord hxs) hc)
  rw [spot, address_after hxs, perform, exec_then exec_next, exec_then (hfetch _), hw,
    exec_then (exec_get _)]
  show exec ((ExceptT.mk (pure (State.cell _ (.int a))) : StepM Value) >>= _) _ = _
  rw [cell_eq ha]
  rfl

theorem step_load (hm : Loaded xs mem) (hw : operand xs w = .int a) (ha : mem[a]? = some (.int n))
    (hxs : xs = pre ++ .opWord .load w :: c) (hc : 0 < size c) :
    (view xs mem (.opWord .load w :: c) ts ks out).step =
      (.ok true, view xs mem c (n :: ts) ks out) := spot_load hm hw ha hxs hc

theorem step_save (hm : Loaded xs mem) (hw : operand xs w = .int a) (ha : DataAt xs a)
    (hxs : xs = pre ++ .opWord .save w :: c) (hc : 0 < size c) :
    (view xs mem (.opWord .save w :: c) (n :: ts) ks out).step =
      (.ok true, view xs (mem.set a (.int n)) c ts ks out) := by
  obtain ⟨k, hk⟩ := hm.data a ha
  have hlt : a < mem.length := (List.getElem?_eq_some_iff.1 hk).1
  refine step_operand hm hxs (fun hfetch => ?_) (view_inside (hm.set ha n) (after_opWord hxs) hc)
  rw [view, address_after hxs, perform, exec_then exec_next, exec_then (hfetch _), hw,
    List.cons_append, List.map_cons, exec_then exec_popCell, exec_then (exec_get _)]
  show exec ((ExceptT.mk (pure (State.place _ (.int a))) : StepM Nat) >>= _) _ = _
  rw [place_eq hlt]
  rfl

theorem step_jmp (hm : Loaded xs mem) (hw : operand xs w = .int (address xs c'))
    (hxs : xs = pre ++ .opWord .jmp w :: c) (hxs' : xs = pre' ++ c') (hc : 0 < size c') :
    (view xs mem (.opWord .jmp w :: c) ts ks out).step = (.ok true, view xs mem c' ts ks out) := by
  refine step_operand hm hxs (fun hfetch => ?_) (view_inside hm hxs' hc)
  rw [perform, exec_then exec_next, exec_then (hfetch _), hw]
  rfl

theorem step_call (hm : Loaded xs mem) (hw : operand xs w = .int (address xs c'))
    (hxs : xs = pre ++ .opWord .call w :: c) (hxs' : xs = pre' ++ c') (hc : 0 < size c') :
    (view xs mem (.opWord .call w :: c) [] ks out).step =
      (.ok true, view xs mem c' [] (address xs c :: ks) out) := by
  refine step_operand hm hxs (fun hfetch => ?_) (view_inside hm hxs' hc)
  rw [address_after hxs, perform, exec_then exec_next, exec_then (exec_get _)]
  refine (exec_then (hfetch _)).trans ?_
  rw [hw]
  rfl

theorem spot_je (hm : Loaded xs mem) (hw : operand xs w = .int (address xs c'))
    (hxs : xs = pre ++ .opWord .je w :: c) (hxs' : xs = pre' ++ c') (hc : 0 < size c)
    (hc' : 0 < size c') :
    (spot xs mem (.opWord .je w :: c) (.int n :: st) out).step =
      (.ok true, spot xs mem (if n = 0 then c' else c) st out) := by
  have hinside : (spot xs mem (if n = 0 then c' else c) st out).inside = .ok true := by
    split
    · exact spot_inside hm hxs' hc'
    · exact spot_inside hm (after_opWord hxs) hc
  refine step_operand hm hxs (fun hfetch => ?_) hinside
  rw [perform, jumpIf, exec_then exec_next, exec_then (hfetch _), hw, exec_then exec_popCell,
    exec_then exec_next]
  have hsame : (Value.int n).same (.int 0) = decide (n = 0) := rfl
  by_cases hn : n = 0
  · show exec (if (Value.int n).same (.int 0) = true then jump _ else pure ()) _ = _
    rw [hsame, decide_eq_true hn, if_pos rfl, if_pos hn]
    rfl
  · show exec (if (Value.int n).same (.int 0) = true then jump _ else pure ()) _ = _
    rw [hsame, decide_eq_false hn, if_neg Bool.false_ne_true, if_neg hn, spot, address_after hxs]
    rfl

theorem step_je (hm : Loaded xs mem) (hw : operand xs w = .int (address xs c'))
    (hxs : xs = pre ++ .opWord .je w :: c) (hxs' : xs = pre' ++ c') (hc : 0 < size c)
    (hc' : 0 < size c') :
    (view xs mem (.opWord .je w :: c) (n :: ts) ks out).step =
      (.ok true, view xs mem (if n = 0 then c' else c) ts ks out) := spot_je hm hw hxs hxs' hc hc'

end Operand

end Pl0Kit.Machine
