import Pl0Kit.Proofs.ParseComplete
import Pl0Kit.Proofs.ParseLaws

/-!
# What a run of the parser depends on

The parser looks at one token ahead.  So what it does up to some place depends on the tokens up to
that place alone, and not on those after it nor on the budget, as long as the budget lasts.

`Follows ts us P p q` compares the run of `p` before some tokens and then `ts` with the run of `q`
before the same tokens and then `us`.  Up to the end of the tokens in common the two runs do the
same.  They even do so at that end if the first text is over and the second one goes on with a
comparison operator, unless a condition is being read: no other rule asks for such an operator.

This is a law of the parser (`following`), and `program_follows` is what it says of programs.
-/

namespace Pl0Kit

open Act

/-- a report of a token that is out of place, or that is missing -/
def Fault.IsSyntax : Fault → Prop
  | .expected .. => True
  | _ => False

namespace Parse

theorem isSyntax_unexpected (c : Cursor) (wanted : String) : (unexpected c wanted).IsSyntax := by
  unfold unexpected
  split <;> trivial

/-- an answer, or the report of a token that is out of place -/
def Regular {α : Type} (r : Except Fault α) : Prop := ∀ e, r = .error e → e.IsSyntax

/-! ## runs side by side -/

/-- a text that is over, and one that goes on with a comparison operator -/
def Blind (ts us : List Token) : Prop :=
  ts = [] ∧ ∃ t rest op, us = t :: rest ∧ t.kind = RelOp.kind op

/-- before the tokens `xs`, and `ts` or `us` after them, the parser cannot see the difference -/
def Shared (ts us xs : List Token) : Prop := xs = [] → Blind ts us

/-- places where a run may start: anywhere, or before some token -/
def Anywhere (_ : List Token) : Prop := True

def AtToken (ts : List Token) : Prop := ts ≠ []

/-- what `p` does before tokens `xs ++ ts`, `q` does before `xs ++ us`, up to the end of `xs` -/
structure Follows {α : Type} (ts us : List Token) (P : List Token → Prop) (p q : Parse α) :
    Prop where
  /-- a run only goes forward -/
  forward : ∀ ⦃c vs⦄, c.Has vs → P vs →
    (exec p c).2.label = c.label ∧ (exec p c).2.tokens <:+ vs
  agrees : ∀ ⦃c d xs ys⦄, c.Has (xs ++ ts) → d.Has (xs ++ us) → Shared ts us xs → P (xs ++ ts) →
    (exec p c).2.Has (ys ++ ts) → Shared ts us ys → Regular (exec p c).1 →
      (exec q d).1.toOption = (exec p c).1.toOption ∧ (exec q d).2.Has (ys ++ us)

section

variable {α β : Type} {ts us xs ys vs ws : List Token} {P : List Token → Prop} {c d : Cursor}
  {k : Kind} {p q : Parse α} {f g : α → Parse β}

theorem Shared.of_suffix (h : Shared ts us ys) (hys : ys <:+ xs) : Shared ts us xs := by
  rintro rfl
  exact h (List.suffix_nil.1 hys)

theorem suffix_of_append (h : ys ++ ts <:+ xs ++ ts) : ys <:+ xs := by
  obtain ⟨l, hl⟩ := h
  rw [← List.append_assoc] at hl
  exact ⟨l, List.append_cancel_right hl⟩

theorem startsWith_shared (hk : relOp? k = none) (h : Shared ts us xs) :
    startsWith k (xs ++ us) = startsWith k (xs ++ ts) := by
  cases xs with
  | cons x xs => rfl
  | nil =>
    obtain ⟨rfl, t, rest, op, rfl, ht⟩ := h rfl
    refine startsWith_of_kind ht fun hop => ?_
    rw [← hop, relOp?_kind_eq] at hk
    cases hk

namespace Follows

theorem weaken (h : Follows ts us Anywhere p q) : Follows ts us P p q :=
  ⟨fun _ _ hc _ => h.forward hc trivial, fun _ _ _ _ hc hd hx _ => h.agrees hc hd hx trivial⟩

theorem pure (a : α) : Follows ts us Anywhere (pure a) (pure a) := by
  refine ⟨fun c vs hc _ => ⟨rfl, hc.tokens ▸ List.suffix_rfl⟩,
    fun c d xs ys hc hd _ _ hy _ _ => ⟨rfl, ?_⟩⟩
  have hxy : ys ++ ts = xs ++ ts := hy.tokens.symm.trans hc.tokens
  rw [List.append_cancel_right hxy]
  exact hd

theorem fail (wanted : String) : Follows ts us Anywhere (fail wanted : Parse α) (fail wanted) := by
  refine ⟨fun c vs hc _ => ⟨rfl, hc.tokens ▸ List.suffix_rfl⟩,
    fun c d xs ys hc hd _ _ hy _ _ => ⟨rfl, ?_⟩⟩
  have hxy : ys ++ ts = xs ++ ts := hy.tokens.symm.trans hc.tokens
  rw [List.append_cancel_right hxy]
  exact hd

/-- a run that gives up says nothing about others -/
theorem giveUp {e : Fault} (he : ¬ e.IsSyntax) : Follows ts us Anywhere (throw e) q :=
  ⟨fun _ _ hc _ => ⟨rfl, hc.tokens ▸ List.suffix_rfl⟩,
    fun _ _ _ _ _ _ _ _ _ _ hr => absurd (hr e rfl) he⟩

theorem bind (hp : Follows ts us P p q) (hf : ∀ a, Follows ts us Anywhere (f a) (g a)) :
    Follows ts us P (p >>= f) (q >>= g) := by
  constructor
  · intro c vs hc hP
    obtain ⟨hlabel, hsuffix⟩ := hp.forward hc hP
    rw [exec_bind]
    generalize exec p c = r at hlabel hsuffix ⊢
    obtain ⟨e | a, c₁⟩ := r
    · exact ⟨hlabel, hsuffix⟩
    · have hc₁ : c₁.Has c₁.tokens := ⟨hlabel ▸ hc.label, rfl⟩
      obtain ⟨hlabel', hsuffix'⟩ := (hf a).forward hc₁ trivial
      exact ⟨hlabel'.trans hlabel, hsuffix'.trans hsuffix⟩
  · intro c d xs ys hc hd hx hP hy hs hr
    obtain ⟨hlabel, hsuffix⟩ := hp.forward hc hP
    have hagrees : ∀ zs, (exec p c).2.Has (zs ++ ts) → Shared ts us zs → Regular (exec p c).1 →
        (exec q d).1.toOption = (exec p c).1.toOption ∧ (exec q d).2.Has (zs ++ us) :=
      fun _ hz => hp.agrees hc hd hx hP hz
    rw [exec_bind] at hy hr ⊢
    rw [exec_bind]
    generalize exec p c = r at hlabel hsuffix hagrees hy hr ⊢
    obtain ⟨e | a, c₁⟩ := r
    · obtain ⟨hopt, hd₁⟩ := hagrees ys hy hs fun e' he => hr e' (by cases he; rfl)
      generalize exec q d = r' at hopt hd₁ ⊢
      obtain ⟨e' | b, d₁⟩ := r'
      · exact ⟨rfl, hd₁⟩
      · cases hopt
    · -- the tokens after the first part are those at the end and some more
      have hc₁ : c₁.Has c₁.tokens := ⟨hlabel ▸ hc.label, rfl⟩
      obtain ⟨-, l, hl⟩ := (hf a).forward hc₁ trivial
      rw [hy.tokens, ← List.append_assoc] at hl
      rw [← hl] at hc₁
      have hs₁ : Shared ts us (l ++ ys) := hs.of_suffix (List.suffix_append l ys)
      obtain ⟨hopt, hd₁⟩ := hagrees (l ++ ys) hc₁ hs₁ nofun
      generalize exec q d = r' at hopt hd₁ ⊢
      obtain ⟨e' | b, d₁⟩ := r'
      · cases hopt
      · cases hopt
        exact (hf a).agrees hc₁ hd₁ hs₁ trivial hy hs hr

/-- a step over a token -/
theorem advance (hp : Follows ts us Anywhere p q) :
    Follows ts us AtToken (advance >>= fun _ => p) (advance >>= fun _ => q) := by
  constructor
  · intro c vs hc hP
    obtain ⟨v, vs, rfl⟩ := List.exists_cons_of_ne_nil hP
    obtain ⟨hlabel, hsuffix⟩ := hp.forward hc.step trivial
    rw [exec_then (exec_advance hc)]
    exact ⟨hlabel.trans c.label_step, hsuffix.trans (List.suffix_cons v vs)⟩
  · intro c d xs ys hc hd hx hP hy hs hr
    cases xs with
    | nil => exact absurd (hx rfl).1 hP
    | cons x xs =>
      rw [exec_then (exec_advance hc)] at hy hr ⊢
      rw [exec_then (exec_advance hd)]
      have hsuffix := (hp.forward hc.step trivial).2
      rw [hy.tokens] at hsuffix
      exact hp.agrees hc.step hd.step (hs.of_suffix (suffix_of_append hsuffix)) trivial hy hs hr

/-- a test of the lookahead token -/
theorem test {p' q' : Parse α} (hk : relOp? k = none) (hp : Follows ts us AtToken p q)
    (hp' : Follows ts us Anywhere p' q') :
    Follows ts us Anywhere (isSym k >>= fun b => if b = true then p else p')
      (isSym k >>= fun b => if b = true then q else q') := by
  have hne : ∀ {vs}, startsWith k vs = true → AtToken vs := by
    rintro vs h rfl
    cases h
  constructor
  · intro c vs hc _
    rw [exec_then (exec_isSym hc)]
    split
    · exact hp.forward hc (hne ‹_›)
    · exact hp'.forward hc trivial
  · intro c d xs ys hc hd hx _ hy hs hr
    rw [exec_then (exec_isSym hc)] at hy hr ⊢
    rw [exec_then (exec_isSym hd), startsWith_shared hk hx]
    by_cases hstart : startsWith k (xs ++ ts) = true
    · simp only [if_pos hstart] at hy hr ⊢
      exact hp.agrees hc hd hx (hne hstart) hy hs hr
    · simp only [if_neg hstart] at hy hr ⊢
      exact hp'.agrees hc hd hx trivial hy hs hr

/-- a token that must be of kind `k` -/
theorem expect {f g : Token → Parse α} (hk : relOp? k = none)
    (hf : ∀ t, Follows ts us AtToken (f t) (g t)) :
    Follows ts us Anywhere (expect k >>= f) (expect k >>= g) := by
  constructor
  · intro c vs hc _
    rcases expect_cases k hc with ⟨t, rest, rfl, -, he⟩ | ⟨-, he⟩
    · rw [exec_then he]
      exact (hf t).forward hc (List.cons_ne_nil t rest)
    · rw [exec_bind, he]
      exact ⟨rfl, hc.tokens ▸ List.suffix_rfl⟩
  · intro c d xs ys hc hd hx _ hy hs hr
    have hstart := startsWith_shared hk hx
    rcases expect_cases k hc with ⟨t, rest, hts, ht, he⟩ | ⟨hmiss, he⟩
    · cases xs with
      | nil =>
        obtain rfl : ts = [] := (hx rfl).1
        cases hts
      | cons x xs =>
        cases hts
        rw [exec_then he] at hy hr ⊢
        rw [exec_then (exec_expect hd ht)]
        exact (hf t).agrees hc hd hx (List.cons_ne_nil _ _) hy hs hr
    · have hfail : exec (Parse.expect k >>= f) c = (.error (unexpected c k.label), c) := by
        rw [exec_bind, he]
      rw [hfail] at hy ⊢
      have hxy : ys ++ ts = xs ++ ts := hy.tokens.symm.trans hc.tokens
      rcases expect_cases k hd with ⟨t, rest, hts, ht, -⟩ | ⟨-, hd'⟩
      · rw [hmiss, hts, startsWith_cons, ht, beq_self_eq_true] at hstart
        cases hstart
      · rw [exec_bind, hd', List.append_cancel_right hxy]
        exact ⟨rfl, hd⟩

/-- a look at the token ahead.  The end of a text and a comparison operator must be dealt with
alike. -/
theorem sym {f g : Option Token → Parse α}
    (hsome : ∀ t, Follows ts us AtToken (f (some t)) (g (some t)))
    (hnone : Follows ts us Anywhere (f none) (g none))
    (hblind : ∀ t op, t.kind = RelOp.kind op → Follows ts us Anywhere (f none) (g (some t))) :
    Follows ts us Anywhere (sym >>= f) (sym >>= g) := by
  constructor
  · intro c vs hc _
    rw [exec_then (exec_sym hc)]
    cases vs with
    | nil => exact hnone.forward hc trivial
    | cons v vs => exact (hsome v).forward hc (List.cons_ne_nil v vs)
  · intro c d xs ys hc hd hx _ hy hs hr
    rw [exec_then (exec_sym hc)] at hy hr ⊢
    rw [exec_then (exec_sym hd)]
    cases xs with
    | cons x xs => exact (hsome x).agrees hc hd hx (List.cons_ne_nil _ _) hy hs hr
    | nil =>
      obtain ⟨rfl, t, rest, op, rfl, ht⟩ := hx rfl
      exact (hblind t op ht).agrees hc hd hx trivial hy hs hr

end Follows

end

/-- the places where a rule may be asked for -/
def Start.Place : Start → List Token → Prop
  | .anywhere => Anywhere
  | .atToken => AtToken

/-- what depends on the tokens in common alone is kept by all ways to put rules together -/
def following (ts us : List Token) : Law where
  Holds st := Follows ts us st.Place
  weaken := Follows.weaken
  answer := Follows.pure
  fail := Follows.fail
  spent _ := .giveUp not_false
  bind := Follows.bind
  advance := Follows.advance
  test := Follows.test
  expect := Follows.expect
  look hsome hnone hblind := .sym hsome hnone fun t op ht => by
    rw [hblind t op ht]
    exact hnone
  demand hsome hf hg := by
    refine .sym hsome ?_ fun _ _ _ => ?_
    · rw [hf]
      exact .giveUp not_false
    · rw [hf]
      exact .giveUp not_false

theorem program_follows {ts us : List Token} {n m : Nat} (h : n ≤ m) :
    Follows ts us Anywhere (program n) (program m) :=
  (following ts us).program h

end Parse

end Pl0Kit
