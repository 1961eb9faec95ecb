import Mathlib.Tactic.Choose
import Pl0Kit.Proofs.Acceptance
import Pl0Kit.Proofs.ParseLaws

/-!
# Parsing as a dialogue

A parser does not see its text.  It holds one token and may ask for the next one, and what it does
then depends on the answers that it got so far and on nothing else.  A `Dialogue` is such a tree of
questions.  Its type says at which token it stands, and that decides what may come next:

* `ask`      asks for the next token, which is possible only before a token;
* `noToken`  looks at a token where there is none, which is possible only at the end;
* `answer`, `missing`, `spent`  end with a value, with the report of something else being wanted, or
  because the budget of nested calls is used up.

A dialogue is a finite tree, so it ends whoever answers.  `Talks` says that a rule of the parser is
a dialogue, and that a larger budget changes nothing as long as the smaller one lasts.  It is a law
(`dialogues`), so it holds of all rules (`program_talks`).
-/

namespace Pl0Kit

open Act

/-- what a parser that stands before the token `s`, or at the end, does with the answers to its
questions -/
inductive Dialogue (α : Type) : Option Token → Type
  | answer {s : Option Token} (a : α) : Dialogue α s
  | missing {s : Option Token} (wanted : String) : Dialogue α s
  | spent {s : Option Token} : Dialogue α s
  | noToken : Dialogue α none
  | ask {t : Token} (next : (s : Option Token) → Dialogue α s) : Dialogue α (some t)

namespace Dialogue

variable {α β : Type} {s : Option Token}

/-- the dialogue with a cursor, which answers with the tokens still to come -/
def run {s : Option Token} : Dialogue α s → Cursor → Except Fault α × Cursor
  | answer a, c => (.ok a, c)
  | missing wanted, c => (.error (Parse.unexpected c wanted), c)
  | spent, c => (.error .outOfFuel, c)
  | noToken, c => (.error .noSuchField, c)
  | ask next, c => (next c.step.sym).run c.step

/-- goes on with another dialogue, from the token at which the first one ends -/
def bind {s : Option Token} :
    Dialogue α s → (α → (s : Option Token) → Dialogue β s) → Dialogue β s
  | answer a, f => f a s
  | missing wanted, _ => missing wanted
  | spent, _ => spent
  | noToken, _ => noToken
  | ask next, f => ask fun s => (next s).bind f

theorem label_run (d : Dialogue α s) (c : Cursor) : (d.run c).2.label = c.label := by
  induction d generalizing c with
  | ask next ih => exact (ih _ c.step).trans c.label_step
  | answer | missing | spent | noToken => rfl

theorem run_bind (d : Dialogue α s) (f : α → (s : Option Token) → Dialogue β s) {c : Cursor}
    (hc : c.sym = s) : (d.bind f).run c =
      match d.run c with
      | (.ok a, c') => (f a c'.sym).run c'
      | (.error e, c') => (.error e, c') := by
  induction d generalizing c with
  | answer a =>
    subst hc
    rfl
  | ask next ih => exact ih _ rfl
  | missing | spent | noToken => rfl

end Dialogue

namespace Parse

variable {α β : Type} {s : Option Token} {c : Cursor} {k : Kind} {t : Token}

/-! ## what a rule does by the token ahead -/

theorem has_of_sym (hc : c.label.isSome) (hs : c.sym = some t) : c.Has (t :: upcoming c.ahead) := by
  refine ⟨hc, ?_⟩
  rw [Cursor.tokens, hs]

theorem exec_test (hc : c.label.isSome) (p q : Parse α) :
    exec (isSym k >>= fun b => if b = true then p else q) c =
      if c.sym.any (fun t => t.kind == k) = true then exec p c else exec q c := by
  have hsym : exec (isSym k) c = (.ok (startsWith k c.tokens), c) := exec_isSym ⟨hc, rfl⟩
  rw [exec_then hsym, startsWith, ← c.sym_eq]
  split <;> rfl

theorem exec_expect_hit (hc : c.label.isSome) (f : Token → Parse α) (hs : c.sym = some t)
    (hk : t.kind = k) : exec (expect k >>= f) c = exec (f t) c :=
  exec_then (exec_expect (has_of_sym hc hs) hk)

theorem exec_expect_miss (hc : c.label.isSome) (f : Token → Parse α)
    (h : c.sym.any (fun t => t.kind == k) = false) :
    exec (expect k >>= f) c = (.error (unexpected c k.label), c) := by
  have hstart : startsWith k c.tokens = false := by
    rw [startsWith, ← c.sym_eq]
    exact h
  rcases expect_cases k ⟨hc, rfl⟩ with ⟨t, rest, hts, hk, -⟩ | ⟨-, hmiss⟩
  · rw [hts, startsWith_cons, hk, beq_self_eq_true] at hstart
    cases hstart
  · rw [exec_bind, hmiss]

/-! ## rules as dialogues -/

/-- before the token `s`, the rule does what the dialogue says -/
def Says (p : Parse α) (d : Dialogue α s) : Prop :=
  ∀ c : Cursor, c.label.isSome → c.sym = s → exec p c = d.run c

/-- whether a rule may be asked for before the token `s` -/
def Start.Admits : Start → Option Token → Prop
  | .anywhere, _ => True
  | .atToken, s => s.isSome

/-- `p` is a dialogue wherever it may start, and `q` does the same unless `p` runs out of budget -/
structure Talks (st : Start) (p q : Parse α) : Prop where
  spoken : ∀ s, st.Admits s → ∃ d : Dialogue α s, Says p d
  lasts : ∀ c : Cursor, c.label.isSome → st.Admits c.sym →
    (exec p c).1 = .error .outOfFuel ∨ exec q c = exec p c

namespace Talks

variable {st : Start} {p q p' q' : Parse α}

theorem weaken (h : Talks .anywhere p q) : Talks st p q :=
  ⟨fun s _ => h.spoken s trivial, fun c hc _ => h.lasts c hc trivial⟩

/-- a rule that is the same with every budget -/
theorem same (h : ∀ s, st.Admits s → ∃ d : Dialogue α s, Says p d) : Talks st p p :=
  ⟨h, fun _ _ _ => .inr rfl⟩

theorem answer (a : α) : Talks .anywhere (pure a) (pure a) :=
  same fun _ _ => ⟨.answer a, fun _ _ _ => rfl⟩

theorem fail (wanted : String) : Talks .anywhere (fail wanted : Parse α) (fail wanted) :=
  same fun _ _ => ⟨.missing wanted, fun _ _ _ => rfl⟩

theorem spent (q : Parse α) : Talks .anywhere (throw .outOfFuel) q :=
  ⟨fun _ _ => ⟨.spent, fun _ _ _ => rfl⟩, fun _ _ _ => .inl rfl⟩

/-- a run of a rule keeps the label of its text -/
theorem label (h : Talks st p q) (hc : c.label.isSome) (hs : st.Admits c.sym) :
    (exec p c).2.label = c.label := by
  obtain ⟨d, hd⟩ := h.spoken c.sym hs
  rw [hd c hc rfl]
  exact d.label_run c

theorem bind {f g : α → Parse β} (h : Talks st p q) (hf : ∀ a, Talks .anywhere (f a) (g a)) :
    Talks st (p >>= f) (q >>= g) := by
  constructor
  · intro s hs
    obtain ⟨d, hd⟩ := h.spoken s hs
    choose e he using fun a s' => (hf a).spoken s' trivial
    refine ⟨d.bind e, fun c hc hsym => ?_⟩
    have hlabel := d.label_run c
    rw [exec_bind, hd c hc hsym, d.run_bind e hsym]
    generalize d.run c = r at hlabel ⊢
    obtain ⟨_ | a, c'⟩ := r
    · rfl
    · have hc' : c'.label.isSome := by rwa [show c'.label = c.label from hlabel]
      exact he a c'.sym c' hc' rfl
  · intro c hc hs
    have hlabel := h.label hc hs
    have hlasts := h.lasts c hc hs
    rw [exec_bind, exec_bind]
    generalize exec p c = r at hlabel hlasts ⊢
    obtain ⟨e | a, c'⟩ := r
    · rcases hlasts with hspent | hq
      · cases hspent
        exact .inl rfl
      · rw [hq]
        exact .inr rfl
    · have hc' : c'.label.isSome := by rwa [show c'.label = c.label from hlabel]
      have hq : exec q c = (.ok a, c') := by
        refine hlasts.resolve_left fun hne => ?_
        cases hne
      rw [hq]
      exact (hf a).lasts c' hc' trivial

theorem advance (h : Talks .anywhere p q) :
    Talks .atToken (advance >>= fun _ => p) (advance >>= fun _ => q) := by
  have hstep : ∀ {c : Cursor} {t : Token} (r : Parse α), c.label.isSome → c.sym = some t →
      exec (Parse.advance >>= fun _ => r) c = exec r c.step := by
    intro c t r hc hs
    exact exec_then (exec_advance (has_of_sym hc hs))
  have hlabel : ∀ {c : Cursor}, c.label.isSome → c.step.label.isSome := by
    intro c hc
    rwa [c.label_step]
  constructor
  · intro s hs
    obtain ⟨t, rfl⟩ := Option.isSome_iff_exists.1 hs
    choose e he using fun s' => h.spoken s' trivial
    refine ⟨.ask e, fun c hc hsym => ?_⟩
    rw [hstep p hc hsym]
    exact he c.step.sym c.step (hlabel hc) rfl
  · intro c hc hs
    obtain ⟨t, ht⟩ := Option.isSome_iff_exists.1 hs
    rw [hstep p hc ht, hstep q hc ht]
    exact h.lasts c.step (hlabel hc) trivial

theorem test (h : Talks .atToken p q) (h' : Talks .anywhere p' q') :
    Talks .anywhere (isSym k >>= fun b => if b = true then p else p')
      (isSym k >>= fun b => if b = true then q else q') := by
  have hsome : ∀ {s : Option Token}, s.any (fun t => t.kind == k) = true → s.isSome := by
    intro s hs
    cases s with
    | none => cases hs
    | some t => rfl
  constructor
  · intro s _
    by_cases hs : s.any (fun t => t.kind == k) = true
    · obtain ⟨d, hd⟩ := h.spoken s (hsome hs)
      refine ⟨d, fun c hc hsym => ?_⟩
      rw [exec_test hc, hsym, if_pos hs]
      exact hd c hc hsym
    · obtain ⟨d, hd⟩ := h'.spoken s trivial
      refine ⟨d, fun c hc hsym => ?_⟩
      rw [exec_test hc, hsym, if_neg hs]
      exact hd c hc hsym
  · intro c hc _
    rw [exec_test hc, exec_test hc]
    split
    · exact h.lasts c hc (hsome ‹_›)
    · exact h'.lasts c hc trivial

theorem expect {f g : Token → Parse α} (hf : ∀ t, Talks .atToken (f t) (g t)) :
    Talks .anywhere (expect k >>= f) (expect k >>= g) := by
  have hit : ∀ {s : Option Token}, s.any (fun t => t.kind == k) = true →
      ∃ t, s = some t ∧ t.kind = k := by
    intro s hs
    cases s with
    | none => cases hs
    | some t => exact ⟨t, rfl, eq_of_beq hs⟩
  constructor
  · intro s _
    by_cases hs : s.any (fun t => t.kind == k) = true
    · obtain ⟨t, rfl, hk⟩ := hit hs
      obtain ⟨d, hd⟩ := (hf t).spoken (some t) rfl
      refine ⟨d, fun c hc hsym => ?_⟩
      rw [exec_expect_hit hc f hsym hk]
      exact hd c hc hsym
    · refine ⟨.missing k.label, fun c hc hsym => ?_⟩
      rw [← hsym, Bool.not_eq_true] at hs
      exact exec_expect_miss hc f hs
  · intro c hc _
    by_cases hs : c.sym.any (fun t => t.kind == k) = true
    · obtain ⟨t, ht, hk⟩ := hit hs
      rw [exec_expect_hit hc f ht hk, exec_expect_hit hc g ht hk]
      exact (hf t).lasts c hc (by rw [ht]; rfl)
    · rw [Bool.not_eq_true] at hs
      rw [exec_expect_miss hc f hs, exec_expect_miss hc g hs]
      exact .inr rfl

/-- a look at the token ahead: what comes next is known for every token, and for the end -/
theorem look {f g : Option Token → Parse α} (hsome : ∀ t, Talks .atToken (f (some t)) (g (some t)))
    (hspoken : ∃ d : Dialogue α none, Says (f none) d)
    (hlasts : ∀ c : Cursor, c.label.isSome →
      (exec (f none) c).1 = .error .outOfFuel ∨ exec (g none) c = exec (f none) c) :
    Talks .anywhere (sym >>= f) (sym >>= g) := by
  have hsym : ∀ {c : Cursor} (h : Option Token → Parse α), exec (sym >>= h) c = exec (h c.sym) c :=
    fun h => exec_then rfl
  constructor
  · intro s _
    have hd : ∃ d : Dialogue α s, Says (f s) d := by
      cases s with
      | none => exact hspoken
      | some t => exact (hsome t).spoken (some t) rfl
    obtain ⟨d, hd⟩ := hd
    refine ⟨d, fun c hc hs => ?_⟩
    rw [hsym, hs]
    exact hd c hc hs
  · intro c hc _
    rw [hsym, hsym]
    cases hs : c.sym with
    | none => exact hlasts c hc
    | some t => exact (hsome t).lasts c hc (by rw [hs]; rfl)

end Talks

/-- being a dialogue is kept by all ways to put rules together -/
def dialogues : Law where
  Holds := Talks
  weaken := Talks.weaken
  answer := Talks.answer
  fail := Talks.fail
  spent := Talks.spent
  bind := Talks.bind
  advance := Talks.advance
  test _ := Talks.test
  expect _ := Talks.expect
  look hsome hnone _ := .look hsome (hnone.spoken none trivial) fun c hc => hnone.lasts c hc trivial
  demand hsome hf hg :=
    .look hsome ⟨.noToken, fun _ _ _ => by rw [hf]; rfl⟩ fun _ _ => .inr (by rw [hf, hg])

/-- reading a program is a dialogue -/
theorem program_talks {n m : Nat} (h : n ≤ m) : Talks .anywhere (program n) (program m) :=
  dialogues.program h

/-! ## budgets -/

section

variable {ts : List Token} {n m : Nat}

/-- three nested calls for each token are enough -/
theorem program_not_spent (hc : c.Has ts) (hp : ∀ t ∈ ts, t.Proper) (hn : 3 * ts.length + 4 ≤ n) :
    (exec (program n) c).1 ≠ .error .outOfFuel := by
  intro h
  have hrun : exec (program n) c = (.error .outOfFuel, (exec (program n) c).2) := Prod.ext h rfl
  obtain ⟨used, rest, more, a, -, -, -, hreason⟩ := program_sticks n hc hp hn hrun
  generalize he : Fault.outOfFuel = e at hreason
  cases hreason with
  | wanted w =>
    unfold unexpected at he
    split at he <;> cases he
  | comparison => cases he

/-- from there on the budget does not matter -/
theorem program_budget (hc : c.Has ts) (hp : ∀ t ∈ ts, t.Proper) (hn : 3 * ts.length + 4 ≤ n)
    (hm : 3 * ts.length + 4 ≤ m) : exec (program n) c = exec (program m) c := by
  have hlasts : ∀ {k : Nat}, 3 * ts.length + 4 ≤ k →
      exec (program k) c = exec (program (3 * ts.length + 4)) c := by
    intro k hk
    have hspent := program_not_spent hc hp (Nat.le_refl _)
    exact ((program_talks hk).lasts c hc.label trivial).resolve_left hspent
  rw [hlasts hn, hlasts hm]

/-- and the budget of a cursor is among these -/
theorem exec_complete_program (hc : c.Has ts) (hp : ∀ t ∈ ts, t.Proper)
    (hn : 3 * ts.length + 4 ≤ n) : exec (complete program) c = exec (program n) c := by
  have hsize := c.length_tokens_le
  rw [hc.tokens] at hsize
  have hbudget : 3 * ts.length + 4 ≤ c.budget := by
    rw [Cursor.budget]
    omega
  rw [exec_complete]
  exact program_budget hc hp hbudget hn

end

end Parse

end Pl0Kit
