import Pl0Kit.Proofs.Parts
import Pl0Kit.Proofs.Stepping

/-!
# Runs of balanced code

`Running xs J ks s` is the invariant of a machine that runs closed, balanced code `xs`: the offset
is in front of a rest of `xs`, the temporaries on the stack are as many as that rest needs, and
below them are the places `ks` where the active calls go on.  Every instruction but a halt leads to
such a machine again (`Fits.step`), with the calls that `callsAfter` says; at a halt the stack is
empty (`Fits.halted`). `Move` lists what such a step can do to memory, offset and calls.
-/

namespace Pl0Kit.Machine

variable {xs pre c : List Item} {J : Bool → String → Prop} {p : Bool} {mem : List Value}
  {ts ks : List Int} {out : String} {x : Item} {o : Opcode}

/-! ## instructions at the offset -/

/-- the instruction that the next step performs -/
def State.opcode? (s : State) : Option Opcode := (s.cell s.offset >>= decode).toOption

/-- the places where active calls go on, after the next step -/
def State.callsAfter (s : State) (calls : List Int) : List Int :=
  match s.opcode?, s.offset.toInt? with
  | some .call, some n => (n + 2) :: calls
  | some .ret, _ => calls.tail
  | _, _ => calls

def Item.opcode? : Item → Option Opcode
  | .op o => some o
  | .opWord o _ => some o
  | _ => none

theorem Loaded.opcode (hm : Loaded xs mem) (hxs : xs = pre ++ x :: c) (hx : x.opcode? = some o) :
    mem[size pre]? = some (.int o.code) := by
  cases x with
  | op o' =>
    cases hx
    exact hm.op hxs
  | opWord o' w =>
    cases hx
    exact (hm.opWord hxs).1
  | note | label _ | zero => cases hx

theorem view_opcode? (hm : Loaded xs mem) (hxs : xs = pre ++ x :: c) (hx : x.opcode? = some o) :
    (view xs mem (x :: c) ts ks out).opcode? = some o := by
  rw [State.opcode?, view_fetch hxs (hm.opcode hxs hx)]
  show (decode (.int o.code)).toOption = some o
  simp only [decode, Value.toInt?, Opcode.ofCode?_code]
  rfl

/-- only calls and returns change the active calls -/
theorem view_callsAfter (hm : Loaded xs mem) (hxs : xs = pre ++ x :: c) (hx : x.opcode? = some o)
    (hcall : o ≠ .call) (hret : o ≠ .ret) (calls : List Int) :
    (view xs mem (x :: c) ts ks out).callsAfter calls = calls := by
  rw [State.callsAfter, view_opcode? hm hxs hx]
  cases o <;> first | rfl | contradiction

/-! ## the invariant -/

/-- the places where active calls go on, the latest first; `p` tells whether there are any -/
inductive Calls (xs : List Item) (J : Bool → String → Prop) : Bool → List Int → Prop
  | main : Calls xs J false []
  | call {p : Bool} {ks : List Int} {pre c : List Item} {l : String} :
      xs = pre ++ .opWord .call l :: c → effect pre = 0 → Fits xs J p 0 c → Calls xs J p ks →
        Calls xs J true (address xs c :: ks)

def Running (xs : List Item) (J : Bool → String → Prop) (ks : List Int) (s : State) : Prop :=
  ∃ (p : Bool) (pre c : List Item) (mem : List Value) (ts : List Int) (out : String),
    xs = pre ++ c ∧ Loaded xs mem ∧ Fits xs J p ts.length c ∧ effect pre = ts.length ∧
      Calls xs J p ks ∧ s = view xs mem c ts ks out

theorem Fits.size_pos {d : Nat} (h : Fits xs J p d c) : 0 < size c := by
  induction h with
  | label _ ih =>
    rw [size_cons]
    omega
  | _ =>
    rw [size_cons, Item.size]
    omega

theorem Fits.head {d : Nat} (h : Fits xs J p d c) :
    ∃ x c', c = x :: c' ∧ ((∃ o, x.opcode? = some o) ∨ ∃ l, x = .label l ∧ Fits xs J p d c') := by
  cases h with
  | label h => exact ⟨_, _, rfl, .inr ⟨_, rfl, h⟩⟩
  | _ => exact ⟨_, _, rfl, .inl ⟨_, rfl⟩⟩

/-- labels in front take no step, so an instruction is at the offset -/
theorem Fits.settle {d : Nat} (h : Fits xs J p d c) (hxs : xs = pre ++ c) :
    ∃ pre' x c' o, xs = pre' ++ x :: c' ∧ x.opcode? = some o ∧ Fits xs J p d (x :: c') ∧
      effect pre' = effect pre ∧
        ∀ mem ts ks out, view xs mem c ts ks out = view xs mem (x :: c') ts ks out := by
  induction c generalizing pre with
  | nil => exact absurd h.size_pos (Nat.lt_irrefl 0)
  | cons y c ih =>
    obtain ⟨x, c', hc, hx⟩ := h.head
    obtain ⟨rfl, rfl⟩ := List.cons.inj hc
    rcases hx with ⟨o, ho⟩ | ⟨l, rfl, hrest⟩
    · exact ⟨pre, y, c, o, hxs, ho, h, rfl, fun _ _ _ _ => rfl⟩
    · obtain ⟨pre', x, c', o, hxs', ho, hfits, heffect, hview⟩ := ih hrest (after_label hxs).1
      refine ⟨pre', x, c', o, hxs', ho, hfits, ?_, fun mem ts ks out => ?_⟩
      · rw [heffect, effect_append]
        exact Int.add_zero _
      · rw [view_label, hview]

theorem Running.settled {s : State} (h : Running xs J ks s) :
    ∃ p pre x c o mem ts out, xs = pre ++ x :: c ∧ x.opcode? = some o ∧ Loaded xs mem ∧
      Fits xs J p ts.length (x :: c) ∧ effect pre = ts.length ∧ Calls xs J p ks ∧
        s = view xs mem (x :: c) ts ks out := by
  obtain ⟨p, pre₀, c₀, mem, ts, out, hxs₀, hm, hfits₀, heffect₀, hks, rfl⟩ := h
  obtain ⟨pre, x, c, o, hxs, hx, hfits, heffect, hview⟩ := hfits₀.settle hxs₀
  exact ⟨p, pre, x, c, o, mem, ts, out, hxs, hx, hm, hfits, heffect.trans heffect₀, hks,
    hview mem ts ks out⟩

/-! ## one step -/

/-- code that control can go on with -/
def Rest (xs c : List Item) : Prop := ∃ J p d, Fits xs J p d c

/-- instructions that write no storage and after which control is, or may be, behind them -/
def Opcode.passes (o : Opcode) : Bool := !(o matches .save | .jmp | .call | .ret | .halt)

theorem Opcode.passes_of_binary? {f : Int → Int → Int} (h : o.binary? = some f) :
    o.passes = true := by
  cases o <;> first | rfl | cases h

/-- how `s'` and its active calls follow `s` with the calls `ks`, by a step on an item in front of
`c` -/
inductive Move (xs c : List Item) (s s' : State) (ks : List Int) : Item → List Int → Prop
  | next {x : Item} {o : Opcode} : x.opcode? = some o → o.passes = true → Rest xs c →
      s'.memory = s.memory → s'.offset = .int (address xs c) → Move xs c s s' ks x ks
  | save {l : String} {a : Nat} {n : Int} {st : List Value} : operand xs l = .int a → DataAt xs a →
      s.stack = .int n :: st → Rest xs c → s'.memory = s.memory.set a (.int n) →
      s'.offset = .int (address xs c) → Move xs c s s' ks (.opWord .save l) ks
  | jump {o : Opcode} {l : String} : o = .je ∨ o = .jmp → s'.memory = s.memory →
      s'.offset = operand xs l → Move xs c s s' ks (.opWord o l) ks
  | call {l : String} : Rest xs c → s'.memory = s.memory → s'.offset = operand xs l →
      Move xs c s s' ks (.opWord .call l) (address xs c :: ks)
  | ret {k : Int} {ks' : List Int} : ks = k :: ks' → s'.memory = s.memory → s'.offset = .int k →
      Move xs c s s' ks (.op .ret) ks'

/-- the machine goes on behind the item `x` -/
theorem Running.next (hxs : xs = pre ++ x :: c) (hm : Loaded xs mem) (hc : Fits xs J p ts.length c)
    (heffect : effect pre + x.effect = ts.length) (hks : Calls xs J p ks) :
    Running xs J ks (view xs mem c ts ks out) := by
  refine ⟨p, pre ++ [x], c, mem, ts, out, ?_, hm, hc, ?_, hks, rfl⟩
  · rw [hxs, List.append_assoc]
    rfl
  · rw [effect_append, effect_cons, effect_nil, ← heffect]
    omega

/-- instructions after which control need not be behind them -/
def Opcode.control (o : Opcode) : Bool := o matches .je | .jmp | .call | .ret | .halt

theorem Opcode.control_of_binary? {f : Int → Int → Int} (h : o.binary? = some f) :
    o.control = false := by
  cases o <;> first | rfl | cases h

/-- all other instructions go on with the next item -/
theorem Fits.step_next (hm : Loaded xs mem) (hxs : xs = pre ++ x :: c)
    (h : Fits xs J p ts.length (x :: c)) (hx : x.opcode? = some o) (ho : o.control = false) :
    ∃ mem' ts' out', (view xs mem (x :: c) ts ks out).step =
      (.ok true, view xs mem' c ts' ks out') ∧
      Loaded xs mem' ∧ Fits xs J p ts'.length c ∧ (ts.length : Int) + x.effect = ts'.length ∧
        Move xs c (view xs mem (x :: c) ts ks out) (view xs mem' c ts' ks out') ks x ks := by
  generalize hd : ts.length = d at h
  cases h with
  | label _ => cases hx
  | ret _ | halt _ | je _ _ | jmp _ _ | call _ _ | enter _ _ =>
    cases hx
    cases ho
  | @print d _ hc =>
    obtain ⟨n, ts, rfl⟩ := List.exists_cons_of_length_eq_add_one hd
    exact ⟨_, _, _, step_print hm hxs hc.size_pos n, hm, hd ▸ hc, hd ▸ Int.add_zero _,
      .next rfl rfl ⟨_, _, _, hc⟩ rfl rfl⟩
  | @pop d _ hc =>
    obtain ⟨n, ts, rfl⟩ := List.exists_cons_of_length_eq_add_one hd
    obtain rfl : ts.length = d := Nat.succ.inj hd
    refine ⟨_, _, _, step_pop hm hxs hc.size_pos n, hm, hc, ?_, .next rfl rfl ⟨_, _, _, hc⟩ rfl rfl⟩
    simp only [Item.effect, Opcode.effect]
    omega
  | @binary o' f d _ hf hc =>
    obtain ⟨a, ts, rfl⟩ := List.exists_cons_of_length_eq_add_one hd
    obtain ⟨b, ts, rfl⟩ := List.exists_cons_of_length_eq_add_one (Nat.succ.inj hd)
    obtain rfl : ts.length = d := Nat.succ.inj (Nat.succ.inj hd)
    refine ⟨_, _, _, step_binary hm hf hxs hc.size_pos a b, hm, hc, ?_,
      .next rfl (Opcode.passes_of_binary? hf) ⟨_, _, _, hc⟩ rfl rfl⟩
    rw [Item.effect, Opcode.effect_of_binary? hf, List.length_cons]
    omega
  | @push w n d _ hw hc =>
    subst hd
    exact ⟨_, _, _, step_push hm hw hxs hc.size_pos, hm, hc, rfl,
      .next rfl rfl ⟨_, _, _, hc⟩ rfl rfl⟩
  | @load l d _ hl hc =>
    subst hd
    obtain ⟨a, hl, ha⟩ := hl
    obtain ⟨n, hn⟩ := hm.data a ha
    exact ⟨_, _, _, step_load hm hl hn hxs hc.size_pos, hm, hc, rfl,
      .next rfl rfl ⟨_, _, _, hc⟩ rfl rfl⟩
  | @save l d _ hl hc =>
    obtain ⟨n, ts, rfl⟩ := List.exists_cons_of_length_eq_add_one hd
    obtain rfl : ts.length = d := Nat.succ.inj hd
    obtain ⟨a, hl, ha⟩ := hl
    refine ⟨_, _, _, step_save hm hl ha hxs hc.size_pos, hm.set ha n, hc, ?_,
      .save hl ha rfl ⟨_, _, _, hc⟩ rfl rfl⟩
    simp only [Item.effect, Opcode.effect]
    omega

/-- the machine goes on at a label -/
theorem Closed.running (hclosed : Closed xs J) {l : String} (hl : J p l) (hm : Loaded xs mem)
    (hks : Calls xs J p ks) (out : String) :
    ∃ pre' c', xs = pre' ++ c' ∧ operand xs l = .int (address xs c') ∧ 0 < size c' ∧
      Running xs J ks (view xs mem c' [] ks out) := by
  obtain ⟨pre', c', hxs', hl', heffect, hc'⟩ := hclosed p l hl
  exact ⟨pre', c', hxs', hl', hc'.size_pos, p, pre', c', mem, [], out, hxs', hm, hc', heffect,
    hks, rfl⟩

theorem callsAfter_call {l : String} (hm : Loaded xs mem) (hxs : xs = pre ++ .opWord .call l :: c)
    (calls : List Int) :
    (view xs mem (.opWord .call l :: c) ts ks out).callsAfter calls = address xs c :: calls := by
  rw [State.callsAfter, view_opcode? hm hxs rfl, address_after hxs, view, address_eq hxs]
  show ((size pre : Int) + 2) :: calls = _
  rw [Int.add_assoc]
  rfl

theorem callsAfter_ret (hm : Loaded xs mem) (hxs : xs = pre ++ .op .ret :: c) (calls : List Int) :
    (view xs mem (.op .ret :: c) ts ks out).callsAfter calls = calls.tail := by
  rw [State.callsAfter, view_opcode? hm hxs rfl]

theorem Closed.step_jmp (hclosed : Closed xs J) {l : String} (hl : J p l) (hm : Loaded xs mem)
    (hxs : xs = pre ++ .opWord .jmp l :: c) (hks : Calls xs J p ks) :
    ∃ s, (view xs mem (.opWord .jmp l :: c) [] ks out).step = (.ok true, s) ∧ Running xs J ks s ∧
      Move xs c (view xs mem (.opWord .jmp l :: c) [] ks out) s ks (.opWord .jmp l) ks := by
  obtain ⟨pre', c', hxs', hl', hc', hrun⟩ := hclosed.running hl hm hks out
  exact ⟨_, Machine.step_jmp hm hl' hxs hxs' hc', hrun, .jump (.inr rfl) rfl hl'.symm⟩

/-- **Balanced code keeps running**: a step on an instruction other than a halt succeeds and goes
on -/
theorem Fits.step (hclosed : Closed xs J) (hm : Loaded xs mem) (hxs : xs = pre ++ x :: c)
    (h : Fits xs J p ts.length (x :: c)) (heffect : effect pre = ts.length) (hks : Calls xs J p ks)
    (hx : x.opcode? = some o) (ho : o ≠ .halt) :
    ∃ s, (view xs mem (x :: c) ts ks out).step = (.ok true, s) ∧
      Running xs J ((view xs mem (x :: c) ts ks out).callsAfter ks) s ∧
        Move xs c (view xs mem (x :: c) ts ks out) s ks x
          ((view xs mem (x :: c) ts ks out).callsAfter ks) := by
  have hkeep : o ≠ .call → o ≠ .ret → (view xs mem (x :: c) ts ks out).callsAfter ks = ks :=
    fun hcall hret => view_callsAfter hm hxs hx hcall hret ks
  by_cases hcontrol : o.control = false
  · obtain ⟨mem', ts', out', hstep, hm', hc, heff, hmove⟩ := h.step_next hm hxs hx hcontrol
    refine ⟨_, hstep, ?_⟩
    rw [hkeep (by rintro rfl; cases hcontrol) (by rintro rfl; cases hcontrol)]
    exact ⟨.next hxs hm' hc (heffect ▸ heff) hks, hmove⟩
  generalize hd : ts.length = d at h heffect
  cases h with
  | label _ => cases hx
  | halt _ =>
    cases hx
    exact absurd rfl ho
  | print _ | pop _ | push _ _ | load _ _ | save _ _ =>
    cases hx
    exact absurd rfl hcontrol
  | binary hf _ =>
    cases hx
    exact absurd (Opcode.control_of_binary? hf) hcontrol
  | @je l _ hl hc =>
    cases hx
    obtain ⟨n, ts, rfl⟩ := List.exists_cons_of_length_eq_add_one hd
    obtain rfl : ts = [] := List.eq_nil_of_length_eq_zero (Nat.succ.inj hd)
    obtain ⟨pre', c', hxs', hl', hc', hrun⟩ := hclosed.running hl hm hks out
    refine ⟨_, step_je hm hl' hxs hxs' hc.size_pos hc', ?_⟩
    rw [hkeep nofun nofun]
    by_cases hn : n = 0
    · rw [if_pos hn]
      exact ⟨hrun, .jump (.inl rfl) rfl hl'.symm⟩
    · rw [if_neg hn]
      refine ⟨.next hxs hm hc ?_ hks, .next rfl rfl ⟨_, _, _, hc⟩ rfl rfl⟩
      rw [heffect]
      rfl
  | jmp hl _ =>
    cases hx
    obtain rfl := List.eq_nil_of_length_eq_zero hd
    rw [hkeep nofun nofun]
    exact hclosed.step_jmp hl hm hxs hks
  | enter hp hl =>
    cases hx
    obtain rfl := List.eq_nil_of_length_eq_zero hd
    rw [hkeep nofun nofun]
    exact hclosed.step_jmp hl hm hxs (hp ▸ hks)
  | @call l _ hl hc =>
    cases hx
    obtain rfl := List.eq_nil_of_length_eq_zero hd
    obtain ⟨pre', c', hxs', hl', hc', hrun⟩ :=
      hclosed.running hl hm (.call hxs heffect hc hks) out
    refine ⟨_, step_call hm hl' hxs hxs' hc', ?_⟩
    rw [callsAfter_call hm hxs]
    exact ⟨hrun, .call ⟨_, _, _, hc⟩ rfl hl'.symm⟩
  | ret hp =>
    cases hx
    obtain rfl := List.eq_nil_of_length_eq_zero hd
    subst hp
    cases hks with
    | call hxs' heff hc' hks' =>
      refine ⟨_, step_ret hm hxs (after_opWord hxs') hc'.size_pos, ?_⟩
      rw [callsAfter_ret hm hxs]
      exact ⟨.next hxs' hm hc' (heff ▸ rfl) hks', .ret rfl rfl rfl⟩

end Pl0Kit.Machine
