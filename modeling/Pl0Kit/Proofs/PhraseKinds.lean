import Mathlib.Data.List.Forall2
import Pl0Kit.Proofs.Phrase

/-!
# Phrases and the kinds of their tokens

Whether some tokens are a phrase depends on their kinds alone: names and numbers only decide which
tree the phrase stands for.  `Token.Like u t` says that `u` can stand in the place of `t`, and there
is one lemma for each relation of the grammar, up to `ProgramPhrase.recast`.
-/

namespace Pl0Kit

namespace Token

/-- a proper token of the same kind -/
def Like (u t : Token) : Prop := u.kind = t.kind ∧ u.Proper

theorem Like.isName {u t : Token} {x : String} (h : u.Like t) (ht : t.IsName x) :
    ∃ y, u.IsName y := by
  have hk : u.kind = .name := h.1.trans ht.1
  obtain ⟨y, hy⟩ := h.2.1 hk
  exact ⟨y, hk, hy⟩

theorem Like.isNumber {u t : Token} {n : Nat} (h : u.Like t) (ht : t.IsNumber n) :
    ∃ m, u.IsNumber m := by
  have hk : u.kind = .number := h.1.trans ht.1
  obtain ⟨m, hm⟩ := h.2.2 hk
  exact ⟨m, hk, hm⟩

end Token

/-- tokens that can stand in the place of others, one by one -/
abbrev Likes : List Token → List Token → Prop := List.Forall₂ Token.Like

namespace Likes

variable {us ts ts' : List Token} {t : Token}

theorem uncons (h : Likes us (t :: ts)) : ∃ u us', us = u :: us' ∧ u.Like t ∧ Likes us' ts := by
  obtain ⟨u, us', hu, hus, rfl⟩ := List.forall₂_cons_right_iff.1 h
  exact ⟨u, us', rfl, hu, hus⟩

theorem split (h : Likes us (ts ++ ts')) :
    ∃ us₁ us₂, us = us₁ ++ us₂ ∧ Likes us₁ ts ∧ Likes us₂ ts' :=
  ⟨us.take ts.length, us.drop ts.length, (List.take_append_drop _ _).symm,
    List.forall₂_take_append _ _ _ h, List.forall₂_drop_append _ _ _ h⟩

theorem single (h : Likes us [t]) : ∃ u, us = [u] ∧ u.Like t := by
  obtain ⟨u, us', rfl, hu, hus⟩ := h.uncons
  cases hus
  exact ⟨u, rfl, hu⟩

theorem of_kinds (hk : us.map Token.kind = ts.map Token.kind) (hp : ∀ u ∈ us, u.Proper) :
    Likes us ts := by
  induction us generalizing ts with
  | nil =>
    cases ts with
    | nil => exact .nil
    | cons t ts => cases hk
  | cons u us ih =>
    cases ts with
    | nil => cases hk
    | cons t ts =>
      obtain ⟨hu, hus⟩ := List.cons.inj hk
      exact .cons ⟨hu, hp u List.mem_cons_self⟩
        (ih hus fun v hv => hp v (List.mem_cons_of_mem u hv))

end Likes

/-- tokens like `ts` are phrases of `R` -/
def Recast {α : Type} (R : List Token → α → Prop) (ts : List Token) : Prop :=
  ∀ ⦃us⦄, Likes us ts → ∃ a, R us a

/-! ## expressions -/

theorem SignPhrase.recast {ts : List Token} {sign : Option AddOp} (h : SignPhrase ts sign) :
    Recast SignPhrase ts := by
  intro us hus
  cases h with
  | absent =>
    cases hus
    exact ⟨none, .absent⟩
  | present hk =>
    obtain ⟨u, rfl, hu⟩ := hus.single
    exact ⟨some _, .present (hu.1.trans hk)⟩

mutual

theorem ExprPhrase.recast : ∀ {ts : List Token} {e : Expr}, ExprPhrase ts e → Recast ExprPhrase ts
  | _, _, .mk hs ht hr, us, hus => by
    obtain ⟨ss, vs, rfl, hss, hvs⟩ := hus.split
    obtain ⟨us₁, us₂, rfl, hus₁, hus₂⟩ := hvs.split
    obtain ⟨sign, hsign⟩ := hs.recast hss
    obtain ⟨x, hx⟩ := ht.recast hus₁
    obtain ⟨xs, hxs⟩ := hr.recast hus₂
    exact ⟨_, .mk hsign hx hxs⟩

theorem TermsPhrase.recast : ∀ {ts : List Token} {xs : List (AddOp × Term)}, TermsPhrase ts xs →
    Recast TermsPhrase ts
  | _, _, .nil, _, hus => by
    cases hus
    exact ⟨[], .nil⟩
  | _, _, .cons hk ht hr, _, hus => by
    obtain ⟨u, vs, rfl, hu, hvs⟩ := hus.uncons
    obtain ⟨us₁, us₂, rfl, hus₁, hus₂⟩ := hvs.split
    obtain ⟨x, hx⟩ := ht.recast hus₁
    obtain ⟨xs, hxs⟩ := hr.recast hus₂
    exact ⟨_, .cons (hu.1.trans hk) hx hxs⟩

theorem TermPhrase.recast : ∀ {ts : List Token} {x : Term}, TermPhrase ts x → Recast TermPhrase ts
  | _, _, .mk hf hr, _, hus => by
    obtain ⟨us₁, us₂, rfl, hus₁, hus₂⟩ := hus.split
    obtain ⟨x, hx⟩ := hf.recast hus₁
    obtain ⟨xs, hxs⟩ := hr.recast hus₂
    exact ⟨_, .mk hx hxs⟩

theorem FactorsPhrase.recast : ∀ {ts : List Token} {xs : List (MulOp × Factor)},
    FactorsPhrase ts xs → Recast FactorsPhrase ts
  | _, _, .nil, _, hus => by
    cases hus
    exact ⟨[], .nil⟩
  | _, _, .cons hk hf hr, _, hus => by
    obtain ⟨u, vs, rfl, hu, hvs⟩ := hus.uncons
    obtain ⟨us₁, us₂, rfl, hus₁, hus₂⟩ := hvs.split
    obtain ⟨x, hx⟩ := hf.recast hus₁
    obtain ⟨xs, hxs⟩ := hr.recast hus₂
    exact ⟨_, .cons (hu.1.trans hk) hx hxs⟩

theorem FactorPhrase.recast : ∀ {ts : List Token} {f : Factor}, FactorPhrase ts f →
    Recast FactorPhrase ts
  | _, _, .name ht, _, hus => by
    obtain ⟨u, rfl, hu⟩ := hus.single
    obtain ⟨y, hy⟩ := hu.isName ht
    exact ⟨_, .name hy⟩
  | _, _, .number ht, _, hus => by
    obtain ⟨u, rfl, hu⟩ := hus.single
    obtain ⟨m, hm⟩ := hu.isNumber ht
    exact ⟨_, .number hm⟩
  | _, _, .paren hl he hr, _, hus => by
    obtain ⟨l, vs, rfl, hl', hvs⟩ := hus.uncons
    obtain ⟨us₁, us₂, rfl, hus₁, hus₂⟩ := hvs.split
    obtain ⟨r, rfl, hr'⟩ := hus₂.single
    obtain ⟨e, he'⟩ := he.recast hus₁
    exact ⟨_, .paren (hl'.1.trans hl) he' (hr'.1.trans hr)⟩

end

/-! ## statements -/

theorem ConditionPhrase.recast {ts : List Token} {c : Condition} (h : ConditionPhrase ts c) :
    Recast ConditionPhrase ts := by
  intro us hus
  cases h with
  | odd ht he =>
    obtain ⟨u, vs, rfl, hu, hvs⟩ := hus.uncons
    obtain ⟨e, he'⟩ := he.recast hvs
    exact ⟨_, .odd (hu.1.trans ht) he'⟩
  | compare hl ht hr =>
    obtain ⟨us₁, vs, rfl, hus₁, hvs⟩ := hus.split
    obtain ⟨u, us₂, rfl, hu, hus₂⟩ := hvs.uncons
    obtain ⟨l, hl'⟩ := hl.recast hus₁
    obtain ⟨r, hr'⟩ := hr.recast hus₂
    exact ⟨_, .compare hl' (hu.1.trans ht) hr'⟩

mutual

theorem StatementPhrase.recast : ∀ {ts : List Token} {s : Statement}, StatementPhrase ts s →
    Recast StatementPhrase ts
  | _, _, .assign ht hu he, _, hus => by
    obtain ⟨t, vs, rfl, ht', hvs⟩ := hus.uncons
    obtain ⟨u, ws, rfl, hu', hws⟩ := hvs.uncons
    obtain ⟨y, hy⟩ := ht'.isName ht
    obtain ⟨e, he'⟩ := he.recast hws
    exact ⟨_, .assign hy (hu'.1.trans hu) he'⟩
  | _, _, .call ht hu, _, hus => by
    obtain ⟨t, vs, rfl, ht', hvs⟩ := hus.uncons
    obtain ⟨u, rfl, hu'⟩ := hvs.single
    obtain ⟨y, hy⟩ := hu'.isName hu
    exact ⟨_, .call (ht'.1.trans ht) hy⟩
  | _, _, .block ht hs hss hu, _, hus => by
    obtain ⟨t, vs, rfl, ht', hvs⟩ := hus.uncons
    obtain ⟨us₁, ws, rfl, hus₁, hws⟩ := hvs.split
    obtain ⟨us₂, us₃, rfl, hus₂, hus₃⟩ := hws.split
    obtain ⟨u, rfl, hu'⟩ := hus₃.single
    obtain ⟨s, hs'⟩ := hs.recast hus₁
    obtain ⟨ss, hss'⟩ := hss.recast hus₂
    exact ⟨_, .block (ht'.1.trans ht) hs' hss' (hu'.1.trans hu)⟩
  | _, _, .ifThen ht hc hu hs, _, hus => by
    obtain ⟨t, vs, rfl, ht', hvs⟩ := hus.uncons
    obtain ⟨us₁, ws, rfl, hus₁, hws⟩ := hvs.split
    obtain ⟨u, us₂, rfl, hu', hus₂⟩ := hws.uncons
    obtain ⟨c, hc'⟩ := hc.recast hus₁
    obtain ⟨s, hs'⟩ := hs.recast hus₂
    exact ⟨_, .ifThen (ht'.1.trans ht) hc' (hu'.1.trans hu) hs'⟩
  | _, _, .whileDo ht hc hu hs, _, hus => by
    obtain ⟨t, vs, rfl, ht', hvs⟩ := hus.uncons
    obtain ⟨us₁, ws, rfl, hus₁, hws⟩ := hvs.split
    obtain ⟨u, us₂, rfl, hu', hus₂⟩ := hws.uncons
    obtain ⟨c, hc'⟩ := hc.recast hus₁
    obtain ⟨s, hs'⟩ := hs.recast hus₂
    exact ⟨_, .whileDo (ht'.1.trans ht) hc' (hu'.1.trans hu) hs'⟩
  | _, _, .print ht he, _, hus => by
    obtain ⟨t, vs, rfl, ht', hvs⟩ := hus.uncons
    obtain ⟨e, he'⟩ := he.recast hvs
    exact ⟨_, .print (ht'.1.trans ht) he'⟩

theorem StatementsPhrase.recast : ∀ {ts : List Token} {ss : List Statement},
    StatementsPhrase ts ss → Recast StatementsPhrase ts
  | _, _, .nil, _, hus => by
    cases hus
    exact ⟨[], .nil⟩
  | _, _, .cons ht hs hss, _, hus => by
    obtain ⟨t, vs, rfl, ht', hvs⟩ := hus.uncons
    obtain ⟨us₁, us₂, rfl, hus₁, hus₂⟩ := hvs.split
    obtain ⟨s, hs'⟩ := hs.recast hus₁
    obtain ⟨ss, hss'⟩ := hss.recast hus₂
    exact ⟨_, .cons (ht'.1.trans ht) hs' hss'⟩

end

/-! ## declarations -/

theorem DefinePhrase.recast {ts : List Token} {d : List (String × Nat)} (h : DefinePhrase ts d) :
    Recast DefinePhrase ts := by
  intro us hus
  cases h with
  | absent =>
    cases hus
    exact ⟨[], .absent⟩
  | present ht hu hv =>
    obtain ⟨t, vs, rfl, ht', hvs⟩ := hus.uncons
    obtain ⟨u, ws, rfl, hu', hws⟩ := hvs.uncons
    obtain ⟨v, rfl, hv'⟩ := hws.single
    obtain ⟨y, hy⟩ := ht'.isName ht
    obtain ⟨m, hm⟩ := hv'.isNumber hv
    exact ⟨_, .present hy (hu'.1.trans hu) hm⟩

theorem DefinesPhrase.recast {ts : List Token} {ds : List (String × Nat)}
    (h : DefinesPhrase ts ds) : Recast DefinesPhrase ts := by
  induction h with
  | last hd =>
    intro us hus
    obtain ⟨d, hd'⟩ := hd.recast hus
    exact ⟨_, .last hd'⟩
  | more hd ht _ ih =>
    intro us hus
    obtain ⟨us₁, vs, rfl, hus₁, hvs⟩ := hus.split
    obtain ⟨t, us₂, rfl, ht', hus₂⟩ := hvs.uncons
    obtain ⟨d, hd'⟩ := hd.recast hus₁
    obtain ⟨ds, hds⟩ := ih hus₂
    exact ⟨_, .more hd' (ht'.1.trans ht) hds⟩

theorem ConstantsPhrase.recast {ts : List Token} {o : Option (List (String × Nat))}
    (h : ConstantsPhrase ts o) : Recast ConstantsPhrase ts := by
  intro us hus
  cases h with
  | absent =>
    cases hus
    exact ⟨none, .absent⟩
  | present ht hd hu =>
    obtain ⟨t, vs, rfl, ht', hvs⟩ := hus.uncons
    obtain ⟨us₁, us₂, rfl, hus₁, hus₂⟩ := hvs.split
    obtain ⟨u, rfl, hu'⟩ := hus₂.single
    obtain ⟨ds, hds⟩ := hd.recast hus₁
    exact ⟨_, .present (ht'.1.trans ht) hds (hu'.1.trans hu)⟩

theorem NamesPhrase.recast {ts : List Token} {xs : List String} (h : NamesPhrase ts xs) :
    Recast NamesPhrase ts := by
  induction h with
  | last ht =>
    intro us hus
    obtain ⟨t, rfl, ht'⟩ := hus.single
    obtain ⟨y, hy⟩ := ht'.isName ht
    exact ⟨_, .last hy⟩
  | more ht hu _ ih =>
    intro us hus
    obtain ⟨t, vs, rfl, ht', hvs⟩ := hus.uncons
    obtain ⟨u, ws, rfl, hu', hws⟩ := hvs.uncons
    obtain ⟨y, hy⟩ := ht'.isName ht
    obtain ⟨ys, hys⟩ := ih hws
    exact ⟨_, .more hy (hu'.1.trans hu) hys⟩

theorem VariablesPhrase.recast {ts : List Token} {o : Option (List String)}
    (h : VariablesPhrase ts o) : Recast VariablesPhrase ts := by
  intro us hus
  cases h with
  | absent =>
    cases hus
    exact ⟨none, .absent⟩
  | present ht hx hu =>
    obtain ⟨t, vs, rfl, ht', hvs⟩ := hus.uncons
    obtain ⟨us₁, us₂, rfl, hus₁, hus₂⟩ := hvs.split
    obtain ⟨u, rfl, hu'⟩ := hus₂.single
    obtain ⟨xs, hxs⟩ := hx.recast hus₁
    exact ⟨_, .present (ht'.1.trans ht) hxs (hu'.1.trans hu)⟩

/-! ## blocks and programs -/

mutual

theorem BlockPhrase.recast : ∀ {ts : List Token} {b : Block}, BlockPhrase ts b →
    Recast BlockPhrase ts
  | _, _, .mk hc hv hp hs, _, hus => by
    obtain ⟨us₁, vs, rfl, hus₁, hvs⟩ := hus.split
    obtain ⟨us₂, ws, rfl, hus₂, hws⟩ := hvs.split
    obtain ⟨us₃, us₄, rfl, hus₃, hus₄⟩ := hws.split
    obtain ⟨consts, hc'⟩ := hc.recast hus₁
    obtain ⟨vars, hv'⟩ := hv.recast hus₂
    obtain ⟨procs, hp'⟩ := hp.recast hus₃
    obtain ⟨s, hs'⟩ := hs.recast hus₄
    exact ⟨_, .mk hc' hv' hp' hs'⟩

theorem ProceduresPhrase.recast : ∀ {ts : List Token} {ps : List (String × Block)},
    ProceduresPhrase ts ps → Recast ProceduresPhrase ts
  | _, _, .nil, _, hus => by
    cases hus
    exact ⟨[], .nil⟩
  | _, _, .cons ht hu hv hb hw hp, _, hus => by
    obtain ⟨t, us₁, rfl, ht', hus₁⟩ := hus.uncons
    obtain ⟨u, us₂, rfl, hu', hus₂⟩ := hus₁.uncons
    obtain ⟨v, us₃, rfl, hv', hus₃⟩ := hus₂.uncons
    obtain ⟨bs, us₄, rfl, hbs, hus₄⟩ := hus₃.split
    obtain ⟨w, ps, rfl, hw', hps⟩ := hus₄.uncons
    obtain ⟨y, hy⟩ := hu'.isName hu
    obtain ⟨b, hb'⟩ := hb.recast hbs
    obtain ⟨procs, hp'⟩ := hp.recast hps
    exact ⟨_, .cons (ht'.1.trans ht) hy (hv'.1.trans hv) hb' (hw'.1.trans hw) hp'⟩

end

theorem ProgramPhrase.recast {ts : List Token} {p : Program} (h : ProgramPhrase ts p) :
    Recast ProgramPhrase ts := by
  intro us hus
  cases h with
  | mk hb ht =>
    obtain ⟨us₁, us₂, rfl, hus₁, hus₂⟩ := hus.split
    obtain ⟨t, rfl, ht'⟩ := hus₂.single
    obtain ⟨b, hb'⟩ := hb.recast hus₁
    exact ⟨_, .mk hb' (ht'.1.trans ht)⟩

end Pl0Kit
