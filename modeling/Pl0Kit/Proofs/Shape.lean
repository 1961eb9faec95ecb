import Pl0Kit.Proofs.Acceptance
import Pl0Kit.Proofs.Spelling

/-!
# The shape of parsed programs

`Program.Shaped` says what holds of every program that parsing gives and not of every tree: names
are identifiers, a compound statement holds a statement, and a variable part declares a name.
`shaped_of_parse` shows it for the parse of any text.
-/

namespace Pl0Kit

open Pl0Kit.Symbol

/-- compound statements hold at least one statement -/
def Statement.Shaped : Statement → Prop
  | .assign _ _ => True
  | .call _ => True
  | .block body => body ≠ [] ∧ shapedAll body
  | .ifThen _ s => s.Shaped
  | .whileDo _ s => s.Shaped
  | .print _ => True
where
  shapedAll : List Statement → Prop
    | [] => True
    | s :: ss => s.Shaped ∧ shapedAll ss

mutual

/-- a variable part declares at least one name, also in procedures -/
def Block.Shaped : Block → Prop
  | .mk _ vars procs body => vars ≠ some [] ∧ Block.shapedProcs procs ∧ body.Shaped

def Block.shapedProcs : List (String × Block) → Prop
  | [] => True
  | (_, b) :: rest => b.Shaped ∧ Block.shapedProcs rest

end

/-- a program whose names are identifiers, and whose parts that cannot be empty are not -/
structure Program.Shaped (p : Program) : Prop where
  names : ∀ x, Symbol.name x ∈ p.symbols → Identifier x
  block : p.block.Shaped

/-! ## phrases have shaped trees -/

mutual

theorem StatementPhrase.shaped : ∀ {ts : List Token} {s : Statement},
    StatementPhrase ts s → s.Shaped
  | _, _, .assign _ _ _ => trivial
  | _, _, .call _ _ => trivial
  | _, _, .block _ hs hrest _ => ⟨List.cons_ne_nil _ _, hs.shaped, hrest.shaped⟩
  | _, _, .ifThen _ _ _ hs => hs.shaped
  | _, _, .whileDo _ _ _ hs => hs.shaped
  | _, _, .print _ _ => trivial

theorem StatementsPhrase.shaped : ∀ {ts : List Token} {ss : List Statement},
    StatementsPhrase ts ss → Statement.Shaped.shapedAll ss
  | _, _, .nil => trivial
  | _, _, .cons _ hs hrest => ⟨hs.shaped, hrest.shaped⟩

end

theorem VariablesPhrase.ne_nil {ts : List Token} {xs : Option (List String)}
    (h : VariablesPhrase ts xs) : xs ≠ some [] := by
  cases h with
  | absent => exact nofun
  | present _ hn _ => cases hn <;> exact nofun

mutual

theorem BlockPhrase.shaped : ∀ {ts : List Token} {b : Block}, BlockPhrase ts b → b.Shaped
  | _, _, .mk _ hv hp hs => ⟨hv.ne_nil, hp.shaped, hs.shaped⟩

theorem ProceduresPhrase.shaped : ∀ {ts : List Token} {ps : List (String × Block)},
    ProceduresPhrase ts ps → Block.shapedProcs ps
  | _, _, .nil => trivial
  | _, _, .cons _ _ _ hb _ hp => ⟨hb.shaped, hp.shaped⟩

end

/-! ## names of a tree are names among its tokens -/

theorem mem_commaList {x : Symbol} {xss : List (List Symbol)} {xs : List Symbol} (hx : x ∈ xs)
    (hxs : xs ∈ xss) : x ∈ commaList xss := by
  induction xss with
  | nil => cases hxs
  | cons ys yss ih =>
    cases yss with
    | nil =>
      obtain rfl := List.mem_singleton.1 hxs
      exact hx
    | cons zs zss =>
      rcases List.mem_cons.1 hxs with rfl | hxs
      · exact List.mem_append_left _ hx
      · exact List.mem_append_right _ (List.mem_cons_of_mem _ (ih hxs))

/-- every name among the symbols is the name of a token -/
def Named (ts : List Token) (xs : List Symbol) : Prop :=
  ∀ x, Symbol.name x ∈ xs → ∃ t ∈ ts, t.IsName x

namespace Named

variable {t : Token} {ts us : List Token} {xs ys : List Symbol}

theorem nil : Named ts [] := fun _ hx => absurd hx List.not_mem_nil

theorem mono (h : Named ts xs) (hs : ts ⊆ us) : Named us xs := by
  intro x hx
  obtain ⟨t, ht, hn⟩ := h x hx
  exact ⟨t, hs ht, hn⟩

theorem append (h : Named ts xs) (h' : Named us ys) : Named (ts ++ us) (xs ++ ys) := by
  intro x hx
  rcases List.mem_append.1 hx with hx | hx
  · exact h.mono (List.subset_append_left ts us) x hx
  · exact h'.mono (List.subset_append_right ts us) x hx

theorem sign {k : Kind} (h : Named ts xs) : Named (t :: ts) (.sign k :: xs) := by
  intro x hx
  rcases List.mem_cons.1 hx with hx | hx
  · cases hx
  · exact h.mono (List.subset_cons_self t ts) x hx

theorem number {n : Nat} (h : Named ts xs) : Named (t :: ts) (.number n :: xs) := by
  intro x hx
  rcases List.mem_cons.1 hx with hx | hx
  · cases hx
  · exact h.mono (List.subset_cons_self t ts) x hx

theorem name {y : String} (ht : t.IsName y) (h : Named ts xs) :
    Named (t :: ts) (.name y :: xs) := by
  intro x hx
  rcases List.mem_cons.1 hx with hx | hx
  · cases hx
    exact ⟨t, List.mem_cons_self, ht⟩
  · exact h.mono (List.subset_cons_self t ts) x hx

end Named

mutual

theorem ExprPhrase.named : ∀ {ts : List Token} {e : Expr}, ExprPhrase ts e → Named ts e.symbols
  | _, _, .mk hs ht hu => by
    have hsum := ht.named.append hu.named
    cases hs with
    | absent => exact hsum
    | present _ => exact hsum.sign

theorem TermsPhrase.named : ∀ {ts : List Token} {xs : List (AddOp × Term)},
    TermsPhrase ts xs → Named ts (Expr.tailSymbols xs)
  | _, _, .nil => .nil
  | _, _, .cons _ hx hr => (hx.named.append hr.named).sign

theorem TermPhrase.named : ∀ {ts : List Token} {x : Term}, TermPhrase ts x → Named ts x.symbols
  | _, _, .mk hf hr => hf.named.append hr.named

theorem FactorsPhrase.named : ∀ {ts : List Token} {xs : List (MulOp × Factor)},
    FactorsPhrase ts xs → Named ts (Term.tailSymbols xs)
  | _, _, .nil => .nil
  | _, _, .cons _ hx hr => (hx.named.append hr.named).sign

theorem FactorPhrase.named : ∀ {ts : List Token} {f : Factor},
    FactorPhrase ts f → Named ts f.symbols
  | _, _, .name ht => .name ht .nil
  | _, _, .number _ => Named.nil.number
  | _, _, .paren _ he _ => (he.named.append (Named.nil.sign)).sign

end

theorem ConditionPhrase.named {ts : List Token} {c : Condition} (h : ConditionPhrase ts c) :
    Named ts c.symbols := by
  cases h with
  | odd _ he => exact he.named.sign
  | compare hl _ hr => exact hl.named.append hr.named.sign

mutual

theorem StatementPhrase.named : ∀ {ts : List Token} {s : Statement},
    StatementPhrase ts s → Named ts s.symbols
  | _, _, .assign ht _ he => .name ht he.named.sign
  | _, _, .call _ hu => (Named.name hu .nil).sign
  | _, _, .block _ hs hrest _ => (hs.named.append (hrest.named.append Named.nil.sign)).sign
  | _, _, .ifThen _ hc _ hs => (hc.named.append hs.named.sign).sign
  | _, _, .whileDo _ hc _ hs => (hc.named.append hs.named.sign).sign
  | _, _, .print _ he => he.named.sign

theorem StatementsPhrase.named : ∀ {ts : List Token} {ss : List Statement},
    StatementsPhrase ts ss → Named ts (Statement.symbols.laterSymbols ss)
  | _, _, .nil => .nil
  | _, _, .cons _ hs hrest => (hs.named.append hrest.named).sign

end

theorem Named.commaList {ts : List Token} : ∀ {xss : List (List Symbol)},
    (∀ xs ∈ xss, Named ts xs) → Named ts (commaList xss)
  | [], _ => .nil
  | [xs], h => h xs List.mem_cons_self
  | xs :: ys :: xss, h => by
    have hrest : Named ts (Symbol.commaList (ys :: xss)) :=
      Named.commaList fun zs hz => h zs (List.mem_cons_of_mem xs hz)
    intro x hx
    rcases List.mem_append.1 hx with hx | hx
    · exact h xs List.mem_cons_self x hx
    · rcases List.mem_cons.1 hx with hx | hx
      · cases hx
      · exact hrest x hx

theorem DefinesPhrase.named {ts : List Token} {ds : List (String × Nat)}
    (h : DefinesPhrase ts ds) : ∀ d ∈ ds, Named ts (defineSymbols d) := by
  have hone : ∀ {us : List Token} {es : List (String × Nat)}, DefinePhrase us es →
      ∀ d ∈ es, Named us (defineSymbols d) := by
    intro us es h d hd
    cases h with
    | absent => exact absurd hd List.not_mem_nil
    | present ht _ _ =>
      obtain rfl := List.mem_singleton.1 hd
      exact .name ht Named.nil.number.sign
  induction h with
  | last h => exact hone h
  | @more t ts us d ds h _ _ ih =>
    intro e he
    rcases List.mem_append.1 he with he | he
    · exact (hone h e he).mono (List.subset_append_left _ _)
    · exact (ih e he).mono
        (List.Subset.trans (List.subset_cons_self t us) (List.subset_append_right _ _))

theorem ConstantsPhrase.named {ts : List Token} {ds : Option (List (String × Nat))}
    (h : ConstantsPhrase ts ds) : Named ts (constsSymbols ds) := by
  cases h with
  | absent => exact .nil
  | present _ hd _ =>
    have hlist := Named.commaList fun xs hx => by
      obtain ⟨d, hm, rfl⟩ := List.mem_map.1 hx
      exact hd.named d hm
    exact (hlist.append Named.nil.sign).sign

theorem NamesPhrase.named {ts : List Token} {xs : List String} (h : NamesPhrase ts xs) :
    Named ts (Symbol.commaList (xs.map fun x => [.name x])) := by
  induction h with
  | last ht => exact .name ht .nil
  | @more t u ts x xs ht _ htail ih =>
    cases xs with
    | nil => cases htail
    | cons y xs => exact .name ht ih.sign

theorem VariablesPhrase.named {ts : List Token} {xs : Option (List String)}
    (h : VariablesPhrase ts xs) : Named ts (varsSymbols xs) := by
  cases h with
  | absent => exact .nil
  | present _ hn _ => exact (hn.named.append Named.nil.sign).sign

mutual

theorem BlockPhrase.named : ∀ {ts : List Token} {b : Block}, BlockPhrase ts b → Named ts b.symbols
  | _, _, .mk hc hv hp hs => hc.named.append (hv.named.append (hp.named.append hs.named))

theorem ProceduresPhrase.named : ∀ {ts : List Token} {ps : List (String × Block)},
    ProceduresPhrase ts ps → Named ts (Block.procSymbols ps)
  | _, _, .nil => .nil
  | _, _, .cons _ hu _ hb _ hp => (Named.name hu (hb.named.append hp.named.sign).sign).sign

end

namespace Symbol

/-- every name among the symbols has the property -/
def Names (P : String → Prop) (xs : List Symbol) : Prop := ∀ x, Symbol.name x ∈ xs → P x

variable {P : String → Prop} {xs ys : List Symbol}

@[simp] theorem names_nil : Names P [] := fun _ hx => absurd hx List.not_mem_nil

@[simp] theorem names_append : Names P (xs ++ ys) ↔ Names P xs ∧ Names P ys := by
  simp only [Names, List.mem_append, or_imp, forall_and]

@[simp] theorem names_sign {k : Kind} : Names P (.sign k :: xs) ↔ Names P xs := by
  simp [Names]

@[simp] theorem names_keyword {w : Keyword} : Names P (ofKeyword w :: xs) ↔ Names P xs := names_sign

@[simp] theorem names_name {x : String} : Names P (.name x :: xs) ↔ P x ∧ Names P xs := by
  simp [Names, or_imp, forall_and]

@[simp] theorem names_commaList {xss : List (List Symbol)} :
    Names P (commaList xss) ↔ ∀ xs ∈ xss, Names P xs := by
  fun_induction commaList xss with
  | case1 => simp
  | case2 xs => simp
  | case3 xs ys xss ih => rw [names_append, names_sign, ih, List.forall_mem_cons (l := ys :: xss)]

end Symbol

/-- **Parsed programs are shaped.** -/
theorem shaped_of_parse {s : String} {p : Program} (h : (parseText s).1 = .ok p) : p.Shaped := by
  obtain ⟨used, rest, hts, hphrase⟩ :=
    Parse.program_sound (Cursor.input_has s) (proper_tokensOf s) (Prod.ext h rfl)
  cases hphrase with
  | @mk dot bs b hb _ =>
    have hnamed : Named (bs ++ [dot]) (Program.symbols ⟨b⟩) := hb.named.append Named.nil.sign
    refine ⟨fun x hx => ?_, hb.shaped⟩
    obtain ⟨t, ht, hname⟩ := hnamed x hx
    have hmem : t ∈ tokensOf s := by
      rw [hts]
      exact List.mem_append_left rest ht
    exact identifier_of_mem hmem hname

end Pl0Kit
