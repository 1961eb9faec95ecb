import Pl0Kit.Proofs.Execution
import Pl0Kit.Proofs.ForthEmissions
import Pl0Kit.Proofs.KnownNames

/-!
# The code of a program in the words of its text

What is emitted for a part of a program without divisions and calls reads as the code of that part
(`ExprText.prims`, `StatementText.items`), if the names that the translator knows mean in the scope
what they were declared as (`Known`), and no word of this code is the name of a variable.  The names
of the part are then used as what they stand for.  With the words of declarations around it, that is
the text of a program (`program_writes`).
-/

namespace Pl0Kit.Forth

open Generator Text

/-! ## names -/

/-- the names that are declared mean what they are declared as -/
structure Known (L : Lexicon) (S : Scope) : Prop where
  const {x : String} {n : Nat} : L.find? x = some (.const n) → S.const x = some (n : Int)
  var {x : String} : L.find? x = some .var → S.const x = none ∧ x ∈ S.vars
  names : ∀ x ∈ S.vars, Identifier x

/-- constants are what they are declared as last -/
theorem find?_define (ds : List (String × Nat)) {x : String} {e : Entry} {L : Lexicon}
    {r : Option Int} (h : ∀ e, L.find? x = some e → ∃ n : Nat, e = .const n ∧ r = some (n : Int))
    (he : (L.define ds).find? x = some e) :
    ∃ n : Nat, e = .const n ∧ ds.foldl (fun r d => if x = d.1 then some (d.2 : Int) else r) r =
      some (n : Int) := by
  induction ds generalizing L r with
  | nil => exact h e he
  | cons d ds ih =>
    refine ih (fun e he => ?_) he
    rw [Lexicon.find?_declare] at he
    split at he
    · cases he
      exact ⟨d.2, rfl, if_pos ‹_›⟩
    · obtain ⟨n, rfl, hn⟩ := h e he
      exact ⟨n, rfl, (if_neg ‹_›).trans hn⟩

theorem find?_allot (xs : List String) (x : String) (L : Lexicon) :
    (L.allot xs).find? x = if x ∈ xs then some .var else L.find? x := by
  induction xs generalizing L with
  | nil => rfl
  | cons y xs ih =>
    refine (ih _).trans ?_
    rw [Lexicon.find?_declare]
    by_cases hx : x ∈ xs
    · simp [hx]
    · by_cases hy : x = y <;> simp [hx, hy]

/-- the declarations of a block without procedures are its scope -/
theorem known_enter {consts : Option (List (String × Nat))} {vars : Option (List String)}
    {S : Scope} (hconst : S.const = constantOf (consts.getD [])) (hvars : S.vars = vars.getD [])
    (hfree : ∀ x ∈ vars.getD [], S.const x = none) (hnames : ∀ x ∈ S.vars, Identifier x) :
    Known (Lexicon.empty.enter consts vars) S := by
  have hfind : ∀ {x e}, (Lexicon.empty.enter consts vars).find? x = some e →
      (x ∈ vars.getD [] ∧ e = .var) ∨ ∃ n : Nat, e = .const n ∧ S.const x = some (n : Int) := by
    intro x e he
    rw [Lexicon.enter, find?_allot] at he
    by_cases hx : x ∈ vars.getD []
    · rw [if_pos hx] at he
      cases he
      exact .inl ⟨hx, rfl⟩
    · rw [if_neg hx] at he
      rw [hconst]
      refine .inr (find?_define _ (fun e he => ?_) he)
      cases he
  refine ⟨fun {x n} he => ?_, fun {x} he => ?_, hnames⟩
  · obtain ⟨-, heq⟩ | ⟨m, heq, hm⟩ := hfind he
    · cases heq
    · cases heq
      exact hm
  · obtain ⟨hx, -⟩ | ⟨m, heq, -⟩ := hfind he
    · exact ⟨hfree x hx, hvars ▸ hx⟩
    · cases heq

theorem kind_const {S : Scope} {x : String} {n : Int} (h : S.const x = some n) :
    S.kind x = some .const := by
  rw [Scope.kind, h]
  rfl

theorem kind_var {S : Scope} {x : String} (hc : S.const x = none) (hv : x ∈ S.vars) :
    S.kind x = some .var := by
  rw [Scope.kind, hc, if_pos hv]
  rfl

/-! ## expressions -/

section Words

variable {xs : List String}

theorem Writes.prims {es ds : List Emission} {ps qs : List Prim} (h : Writes xs es (ps.map .prim))
    (h' : Writes xs ds (qs.map .prim)) : Writes xs (es ++ ds) ((ps ++ qs).map .prim) := by
  rw [List.map_append]
  exact h.append h'

/-- an operator between the code of its operand and what follows -/
theorem Writes.operator {es ds : List Emission} {ps qs : List Prim} {e : Emission} {p : Prim}
    (h : Writes xs es (ps.map .prim)) (he : Writes xs [e] ([p].map .prim))
    (h' : Writes xs ds (qs.map .prim)) : Writes xs (es ++ e :: ds) ((ps ++ p :: qs).map .prim) := by
  rw [List.append_cons ps, List.append_cons es]
  exact (h.prims he).prims h'

theorem Writes.flat {es : List Emission} {ps : List Prim} (h : Writes xs es (ps.map .prim)) :
    Writes xs es (flattenAll (ps.map .prim)) := by
  rwa [flattenAll_prims]

variable (hxs : ∀ x ∈ xs, Identifier x)

include hxs

theorem writes_add (op : AddOp) : Writes xs [.say (addWord op)] ([addPrim op].map .prim) := by
  cases op with
  | plus => exact .say hxs "+" rfl rfl (by decide)
  | minus => exact .say hxs "-" rfl rfl (by decide)

theorem writes_minusOne : Writes xs [.say "-1 *"] ([Prim.lit (-1), .mul].map .prim) := by
  have hone : Reads (dictionary xs) ["-1"] [.prim (.lit (-1))] := reads_literal hxs rfl
  exact ⟨["-1", "*"], .say rfl, hone.append (reads_standard hxs rfl (by decide))⟩

theorem writes_odd (hmod : "mod" ∉ xs) :
    Writes xs [.say "2 mod 1 ="] ([Prim.lit 2, .mod, .lit 1, .rel .e].map .prim) := by
  have htwo : Reads (dictionary xs) ["2"] [.prim (.lit 2)] := reads_literal hxs rfl
  have hmod : Reads (dictionary xs) ["mod"] [.prim .mod] := .word (if_neg hmod) rfl
  have hone : Reads (dictionary xs) ["1"] [.prim (.lit 1)] := reads_literal hxs rfl
  have heq : Reads (dictionary xs) ["="] [.prim (.rel .e)] := reads_standard hxs rfl (by decide)
  exact ⟨["2", "mod", "1", "="], .say rfl, htwo.append (hmod.append (hone.append heq))⟩

theorem writes_rel (op : RelOp) :
    Writes xs [.put (" " ++ relWord op ++ " ")] ([Prim.rel op].map .prim) := by
  cases op with
  | lt => exact .put hxs "<" rfl rfl (by decide) rfl rfl
  | lte => exact .put hxs "<=" rfl rfl (by decide) rfl rfl
  | gt => exact .put hxs ">" rfl rfl (by decide) rfl rfl
  | gte => exact .put hxs ">=" rfl rfl (by decide) rfl rfl
  | e => exact .put hxs "=" rfl rfl (by decide) rfl rfl
  | ne => exact .put hxs "<>" rfl rfl (by decide) rfl rfl

end Words

section

variable {L : Lexicon} {S : Scope} {es : List Emission}

mutual

theorem ExprText.prims (hL : Known L S) : ∀ {e : Expr} {es : List Emission}, ExprText L e es →
    e.Within .noDivision → ValuesIn S.kind e.symbols ∧
      ∃ ps, ExprPrims S e ps ∧ Writes S.vars es (ps.map .prim)
  | _, _, .plain hsign h h', hw => by
    obtain ⟨hx, ps, hps, hes⟩ := h.prims hL hw.1
    obtain ⟨hr, qs, hqs, hds⟩ := h'.prims hL hw.2
    exact ⟨valuesIn_expr.2 ⟨hx, hr⟩, _, .plain hsign hps hqs, hes.prims hds⟩
  | _, _, .literal (n := n) h, hw => by
    obtain ⟨hr, qs, hqs, hds⟩ := h.prims hL hw.1.2
    have hn : ValuesIn S.kind (Factor.number n).symbols := by simp [Factor.symbols, ValuesIn]
    have hminus : Writes S.vars [.say ("-" ++ intText n)] ([Prim.lit (-n)].map .prim) :=
      .negative hL.names n
    exact ⟨valuesIn_expr.2 ⟨valuesIn_append.2 ⟨hn, hr⟩, valuesIn_nil⟩, _, .literal hqs,
      hminus.prims hds⟩
  | _, _, .negated _ h, hw => by
    obtain ⟨hx, ps, hps, hes⟩ := h.prims hL hw.1
    exact ⟨valuesIn_expr.2 ⟨hx, valuesIn_nil⟩, _, .negated hps,
      hes.prims (writes_minusOne hL.names)⟩

theorem TermsText.prims (hL : Known L S) : ∀ {xs : List (AddOp × Term)} {es : List Emission},
    TermsText L xs es → Expr.tailWithin .noDivision xs → ValuesIn S.kind (Expr.tailSymbols xs) ∧
      ∃ ps, TermsPrims S xs ps ∧ Writes S.vars es (ps.map .prim)
  | _, _, .nil, _ => ⟨valuesIn_nil, [], .nil, .nil⟩
  | _, _, @TermsText.cons _ op _ _ _ _ h h', hw => by
    obtain ⟨hx, ps, hps, hes⟩ := h.prims hL hw.2.1
    obtain ⟨hr, qs, hqs, hds⟩ := h'.prims hL hw.2.2
    exact ⟨valuesIn_sign.2 (valuesIn_append.2 ⟨hx, hr⟩), _, .cons hps hqs,
      hes.operator (writes_add hL.names op) hds⟩

theorem TermText.prims (hL : Known L S) : ∀ {x : Term} {es : List Emission}, TermText L x es →
    x.Within .noDivision → ValuesIn S.kind x.symbols ∧
      ∃ ps, TermPrims S x ps ∧ Writes S.vars es (ps.map .prim)
  | _, _, .mk h h', hw => by
    obtain ⟨hx, ps, hps, hes⟩ := h.prims hL hw.1
    obtain ⟨hr, qs, hqs, hds⟩ := h'.prims hL hw.2
    exact ⟨valuesIn_append.2 ⟨hx, hr⟩, _, .mk hps hqs, hes.prims hds⟩

theorem FactorsText.prims (hL : Known L S) : ∀ {xs : List (MulOp × Factor)} {es : List Emission},
    FactorsText L xs es → Term.tailWithin .noDivision xs →
      ValuesIn S.kind (Term.tailSymbols xs) ∧
        ∃ ps, FactorsPrims S xs ps ∧ Writes S.vars es (ps.map .prim)
  | _, _, .nil, _ => ⟨valuesIn_nil, [], .nil, .nil⟩
  | _, _, @FactorsText.cons _ op _ _ _ _ h h', hw => by
    obtain ⟨rfl, hx, hrest⟩ : op = .times ∧ _ ∧ _ := hw
    obtain ⟨hx, ps, hps, hes⟩ := h.prims hL hx
    obtain ⟨hr, qs, hqs, hds⟩ := h'.prims hL hrest
    exact ⟨valuesIn_sign.2 (valuesIn_append.2 ⟨hx, hr⟩), _, .cons hps hqs,
      hes.operator (.say hL.names "*" rfl rfl (by decide)) hds⟩

theorem FactorText.prims (hL : Known L S) : ∀ {x : Factor} {es : List Emission}, FactorText L x es →
    x.Within .noDivision → ValuesIn S.kind x.symbols ∧
      ∃ ps, FactorPrims S x ps ∧ Writes S.vars es (ps.map .prim)
  | _, _, .name h, _ => by
    cases h with
    | @const n hx =>
      have hconst := hL.const hx
      exact ⟨valuesIn_name.2 (.inl (kind_const hconst)), _, .const hconst, .constant hL.names n⟩
    | var hx =>
      obtain ⟨hfree, hmem⟩ := hL.var hx
      exact ⟨valuesIn_name.2 (.inr (kind_var hfree hmem)), _, .var hfree hmem, .fetch hL.names hmem⟩
  | _, _, .number (n := n), _ =>
    ⟨by simp [Factor.symbols, ValuesIn], _, .number, .number hL.names n⟩
  | _, _, .paren h, hw => by
    obtain ⟨he, ps, hps, hes⟩ := h.prims hL hw
    exact ⟨valuesIn_paren.2 he, ps, .paren hps, hes⟩

end

/-! ## conditions and statements -/

theorem ConditionText.prims (hL : Known L S) {c : Condition} (h : ConditionText L c es)
    (hw : c.Within .noDivision) (hf : ∀ w ∈ c.forthWords, w ∉ S.vars) :
    ValuesIn S.kind c.symbols ∧ ∃ ps, ConditionPrims S c ps ∧ Writes S.vars es (ps.map .prim) := by
  cases h with
  | odd h =>
    obtain ⟨he, ps, hps, hes⟩ := h.prims hL hw.2
    have hmod : "mod" ∉ S.vars := hf "mod" List.mem_cons_self
    exact ⟨valuesIn_sign.2 he, _, .odd hps, hes.prims (writes_odd hL.names hmod)⟩
  | @compare _ _ op _ _ h h' =>
    obtain ⟨hl, ps, hps, hes⟩ := h.prims hL hw.2.1
    obtain ⟨hr, qs, hqs, hds⟩ := h'.prims hL hw.2.2
    exact ⟨valuesIn_append.2 ⟨hl, valuesIn_sign.2 hr⟩, _, .compare hps hqs,
      hes.prims (hds.prims (writes_rel hL.names op))⟩

variable {path : List String}

mutual

theorem StatementText.items (hL : Known L S) : ∀ {s : Statement} {es : List Emission},
    StatementText ⟨path, L⟩ s es → s.Within .noDivision → s.calls = [] →
      (∀ x ∈ s.assigned, S.const x = none) → (∀ w ∈ s.forthWords, w ∉ S.vars) →
        s.Fits S.kind ∧ ∃ is, StatementItems S s is ∧ Writes S.vars es (flattenAll is)
  | _, _, .assign (x := x) h hx, hw, _, ha, _ => by
    obtain ⟨he, ps, hps, hes⟩ := h.prims hL hw
    cases hx with
    | const hx =>
      have hconst := hL.const hx
      rw [ha x List.mem_cons_self] at hconst
      cases hconst
    | var hx =>
      obtain ⟨hfree, hmem⟩ := hL.var hx
      have hstore : Writes S.vars ([" ", x, " ", "!", " "].map .put)
          ([Prim.lit (S.vars.idxOf x), .store].map .prim) := .store hL.names hmem
      exact ⟨⟨kind_var hfree hmem, he⟩, _, .assign hps hfree hmem, (hes.prims hstore).flat⟩
  | _, _, .block h, hw, hc, ha, hf => by
    obtain ⟨hfits, is, his, hes⟩ := h.items hL hw hc ha hf
    exact ⟨hfits, is, .block his, hes⟩
  | _, _, .ifThen h h', hw, hc, ha, hf => by
    obtain ⟨hfc, hfs⟩ := List.forall_mem_append.1 hf
    obtain ⟨he, ps, hps, hes⟩ := h.prims hL hw.1 hfc
    obtain ⟨hfits, is, his, hds⟩ := h'.items hL hw.2 hc ha hfs
    have hif : Writes S.vars [.put " if "] [.ifMark] :=
      .put hL.names "if" rfl rfl (by decide) rfl rfl
    have hthen : Writes S.vars [.put " then "] [.thenMark] :=
      .put hL.names "then" rfl rfl (by decide) rfl rfl
    refine ⟨⟨he, hfits⟩, _, .ifThen hps his, ?_⟩
    have hall := hes.flat.append (hif.append (hds.append hthen))
    simpa [flattenAll, Item.flatten] using hall
  | _, _, .whileDo h h', hw, hc, ha, hf => by
    obtain ⟨hloop, hf⟩ := List.forall_mem_cons.1 hf
    obtain ⟨hfc, hfs⟩ := List.forall_mem_append.1 hf
    obtain ⟨he, ps, hps, hes⟩ := h.prims hL hw.1 hfc
    obtain ⟨hfits, is, his, hds⟩ := h'.items hL hw.2 hc ha hfs
    have hbegin : Writes S.vars [.say " begin "] [.beginMark] :=
      .say hL.names "begin" rfl rfl (by decide)
    have hwhile : Writes S.vars [.say " while "] [.whileMark] :=
      .say hL.names "while" rfl rfl (by decide)
    have hrepeat : Writes S.vars [.say " repeat "] [.repeatMark] :=
      ⟨["repeat"], .say rfl, .word (if_neg hloop) rfl⟩
    refine ⟨⟨he, hfits⟩, _, .whileDo hps his, ?_⟩
    have hall := hbegin.append (hes.flat.append (hwhile.append (hds.append hrepeat)))
    simpa [flattenAll, Item.flatten] using hall
  | _, _, .print h, hw, _, _, _ => by
    obtain ⟨he, ps, hps, hes⟩ := h.prims hL hw
    have hprint : Writes S.vars [.say " . "] ([Prim.print].map .prim) :=
      .say hL.names "." rfl rfl (by decide)
    exact ⟨he, _, .print hps, (hes.prims hprint).flat⟩

theorem StatementsText.items (hL : Known L S) : ∀ {ss : List Statement} {es : List Emission},
    StatementsText ⟨path, L⟩ ss es → Statement.Within.allWithin .noDivision ss →
      Statement.calls.all ss = [] → (∀ x ∈ Statement.assigned.all ss, S.const x = none) →
        (∀ w ∈ Statement.forthWords.all ss, w ∉ S.vars) →
          Statement.Fits.all S.kind ss ∧
            ∃ is, StatementsItems S ss is ∧ Writes S.vars es (flattenAll is)
  | _, _, .nil, _, _, _, _ => ⟨trivial, [], .nil, .nil⟩
  | _, _, .cons h h', hw, hc, ha, hf => by
    obtain ⟨hcs, hcss⟩ := List.append_eq_nil_iff.1 hc
    obtain ⟨has, hass⟩ := List.forall_mem_append.1 ha
    obtain ⟨hfs, hfss⟩ := List.forall_mem_append.1 hf
    obtain ⟨hfits, is, his, hes⟩ := h.items hL hw.1 hcs has hfs
    obtain ⟨hrest, js, hjs, hds⟩ := h'.items hL hw.2 hcss hass hfss
    refine ⟨⟨hfits, hrest⟩, _, .cons his hjs, ?_⟩
    rw [flattenAll_append]
    exact hes.append hds

end

end

/-- **The text of a program without procedures and calls**: its variables, and the definition and
execution of words that are the code of its statement. -/
theorem program_writes {consts : Option (List (String × Nat))} {vars : Option (List String)}
    {body : Statement} {b : Block} (hb : b = .mk consts vars [] body) (hS : Sound b.scope)
    (hvars : b.scope.vars = vars.getD []) (hfree : ∀ x ∈ vars.getD [], b.scope.const x = none)
    (hw : body.Within .noDivision) (hcalls : body.calls = [])
    (hassigned : ∀ x ∈ body.assigned, x ∈ vars.getD [])
    (hwords : ∀ w ∈ body.forthWords, w ∉ b.scope.vars) {v : Value} {text : String} {t : Translator}
    (h : translate (Program.toValue ⟨b⟩) {} = (.ok v, text, t)) :
    body.Fits b.scope.kind ∧ ∃ is ws, StatementItems b.scope body is ∧
      Reads (dictionary b.scope.vars) ws (flattenAll is) ∧
        words text = textWords (vars.getD []) ws := by
  subst hb
  obtain ⟨es, hes, hemitted⟩ := emitted_program h
  have htext := text_translate (Program.toValue ⟨.mk consts vars [] body⟩) {}
  rw [h, hemitted] at htext
  cases hes with
  | @mk _ _ _ _ _ _ _ es ds hprocs hbody =>
    cases hprocs
    have hknown := known_enter rfl hvars hfree hS.names
    obtain ⟨hfits, is, his, ws, hsaid, hreads⟩ :=
      hbody.items hknown hw hcalls (fun x hx => hfree x (hassigned x hx)) hwords
    refine ⟨hfits, is, ws, his, hreads, ?_⟩
    rw [← words_program (fun x hx => hS.names x (hvars ▸ hx)) hsaid]
    show words text = _
    rw [show text = _ from htext]
    simp [programEmissions]

end Pl0Kit.Forth
