import Mathlib.Data.List.Basic
import Mathlib.Tactic.Ring
import Pl0Kit.Proofs.ForthCode
import Pl0Kit.Proofs.Linking
import Pl0Kit.Proofs.Emission

/-!
# Meaning of a Forth translation

The words of a translated program do on the Forth machine what the program means, and so print what
the evaluator prints, as long as its variables leave the words of the text their meaning.  The cells
hold the values of a store (`Holds`), and each statement gives the stack back as it was.

* `ExprPrims.performs`        the code of an expression pushes its value;
* `Runs.performs`             the code of a statement follows its meaning;
* `forth_program_agrees`      a translated program and the evaluator.
-/

namespace Pl0Kit.Forth

open Generator Text

variable {S : Scope} {σ σ' : Store} {s : State}

/-- cells hold the values of variables -/
def Holds (S : Scope) (σ : Store) (s : State) : Prop :=
  ∀ x ∈ S.vars, s.cells[S.vars.idxOf x]? = some (σ x)

theorem Holds.push (h : Holds S σ s) (n : Int) : Holds S σ (s.push n) := h

theorem Holds.cell? (h : Holds S σ s) {x : String} (hx : x ∈ S.vars) :
    s.cell? (S.vars.idxOf x) = some (σ x) := by
  rw [State.cell?, if_pos (Int.natCast_nonneg _), Int.toNat_natCast, h x hx]

/-- variables have different addresses, so the others keep their values -/
theorem Holds.store (h : Holds S σ s) {x : String} (hx : x ∈ S.vars) (n : Int) :
    Holds S (Function.update σ x n) { s with cells := s.cells.set (S.vars.idxOf x) n } := by
  intro y hy
  rw [List.getElem?_set]
  by_cases hyx : y = x
  · subst hyx
    have hlt : S.vars.idxOf y < s.cells.length := (List.getElem?_eq_some_iff.1 (h y hx)).1
    rw [if_pos rfl, if_pos hlt, Function.update_self]
  · have hne : S.vars.idxOf x ≠ S.vars.idxOf y := fun he => hyx ((List.idxOf_inj hx).1 he).symm
    rw [if_neg hne, Function.update_of_ne hyx]
    exact h y hy

/-! ## expressions -/

theorem performs_lit (n : Int) (s : State) : Performs ([Prim.lit n].map .prim) s (s.push n) :=
  .prim rfl

/-- a word that acts on two values -/
theorem performs_binary {p : Prim} {f : Int → Int → Option Int} (hp : p.step = State.binary f)
    {a b n : Int} (hn : f a b = some n) (s : State) :
    Performs ([p].map .prim) ((s.push a).push b) (s.push n) := by
  refine .prim ?_
  rw [hp]
  show (f a b).map _ = _
  rw [hn]
  rfl

theorem Performs.prims {ps qs : List Prim} {t u : State} (h : Performs (ps.map .prim) s t)
    (h' : Performs (qs.map .prim) t u) : Performs ((ps ++ qs).map .prim) s u := by
  rw [List.map_append]
  exact h.append h'

theorem productFrom_neg (ρ : String → Int) (a : Int) (xs : List (MulOp × Factor)) :
    Term.productFrom ρ (-a) xs = -Term.productFrom ρ a xs := by
  induction xs generalizing a with
  | nil => rfl
  | cons x xs ih =>
    obtain ⟨op, x⟩ := x
    cases op with
    | times => rw [Term.productFrom, Term.productFrom, MulOp.apply, Int.neg_mul, ih]; rfl
    | divide => exact ih a

theorem performs_add (op : AddOp) (a b : Int) (s : State) :
    Performs ([addPrim op].map .prim) ((s.push a).push b) (s.push (op.apply a b)) := by
  cases op
  · exact performs_binary rfl rfl s
  · exact performs_binary rfl rfl s

mutual

theorem ExprPrims.performs : ∀ {e : Expr} {ps : List Prim} {s : State}, ExprPrims S e ps →
    Holds S σ s → Performs (ps.map .prim) s (s.push (e.denote (S.value σ)))
  | .mk sign first rest, _, s, .plain hsign ht hr, hs => by
    have hsum : (Expr.mk sign first rest).denote (S.value σ) =
        Expr.sumFrom (S.value σ) (first.denote (S.value σ)) rest := by
      rcases sign with _ | _ | _
      · rfl
      · rfl
      · exact absurd rfl hsign
    rw [hsum]
    exact (ht.performs hs).prims (hr.performs hs _)
  | .mk (some .minus) (.mk (.number n) rest) [], _, s, .literal hr, hs => by
    have hvalue : (Expr.mk (some .minus) (.mk (.number n) rest) []).denote (S.value σ) =
        Term.productFrom (S.value σ) (-n) rest := by
      rw [productFrom_neg]
      show Term.productFrom (S.value σ) n rest * -1 = _
      ring
    rw [hvalue]
    exact (performs_lit (-n) s).prims (hr.performs hs _)
  | .mk (some .minus) first [], _, s, .negated ht, hs => by
    refine (ht.performs hs).prims ?_
    have htimes := performs_binary (p := .mul) rfl rfl (a := first.denote (S.value σ)) (b := -1) s
    exact (performs_lit (-1) _).prims htimes

theorem TermsPrims.performs : ∀ {xs : List (AddOp × Term)} {ps : List Prim} {s : State},
    TermsPrims S xs ps → Holds S σ s → ∀ a : Int,
      Performs (ps.map .prim) (s.push a) (s.push (Expr.sumFrom (S.value σ) a xs))
  | _, _, _, .nil, _, _ => .nil
  | (op, x) :: rest, _, s, .cons hx hr, hs, a => by
    rw [List.append_cons]
    have hfirst := (hx.performs (hs.push a)).prims (performs_add op a (x.denote (S.value σ)) s)
    exact hfirst.prims (hr.performs hs _)

theorem TermPrims.performs : ∀ {x : Term} {ps : List Prim} {s : State}, TermPrims S x ps →
    Holds S σ s → Performs (ps.map .prim) s (s.push (x.denote (S.value σ)))
  | _, _, _, .mk hf hr, hs => (hf.performs hs).prims (hr.performs hs _)

theorem FactorsPrims.performs : ∀ {xs : List (MulOp × Factor)} {ps : List Prim} {s : State},
    FactorsPrims S xs ps → Holds S σ s → ∀ a : Int,
      Performs (ps.map .prim) (s.push a) (s.push (Term.productFrom (S.value σ) a xs))
  | _, _, _, .nil, _, _ => .nil
  | (_, x) :: rest, _, s, .cons hx hr, hs, a => by
    rw [List.append_cons]
    have htimes := performs_binary (p := .mul) rfl rfl (a := a) (b := x.denote (S.value σ)) s
    exact ((hx.performs (hs.push a)).prims htimes).prims (hr.performs hs _)

theorem FactorPrims.performs : ∀ {x : Factor} {ps : List Prim} {s : State}, FactorPrims S x ps →
    Holds S σ s → Performs (ps.map .prim) s (s.push (x.denote (S.value σ)))
  | .name x, _, s, .const (n := n) hc, _ => by
    have hvalue : (Factor.name x).denote (S.value σ) = n := by
      rw [Factor.denote, Scope.value, hc]
      rfl
    rw [hvalue]
    exact performs_lit n s
  | .name x, _, s, .var hc hv, hs => by
    have hvalue : (Factor.name x).denote (S.value σ) = σ x := by
      rw [Factor.denote, Scope.value, hc]
      rfl
    rw [hvalue]
    refine (performs_lit _ s).prims (.prim ?_)
    show ((s.push _).cell? _).map _ = _
    rw [(hs.push _).cell? hv]
    rfl
  | .number n, _, s, .number, _ => performs_lit n s
  | .paren _, _, _, .paren he, hs => he.performs hs

end

/-! ## conditions -/

theorem ConditionPrims.performs {c : Condition} {ps : List Prim} (h : ConditionPrims S c ps)
    (hs : Holds S σ s) : Performs (ps.map .prim) s (s.push (flag (c.denote (S.value σ)))) := by
  cases h with
  | @odd e ps he =>
    have hparity : RelOp.e.denote ((e.denote (S.value σ)).fmod 2) 1 =
        (Condition.odd e).denote (S.value σ) := by
      show decide (_ = 1) = decide (_ ≠ 0)
      rw [Int.fmod_eq_emod_of_nonneg _ (by decide)]
      congr 1
      apply propext
      omega
    have hmod := performs_binary (p := .mod) rfl (if_neg (by decide))
      (a := e.denote (S.value σ)) (b := 2) s
    have htest := performs_binary (p := .rel .e) rfl rfl
      (a := (e.denote (S.value σ)).fmod 2) (b := 1) s
    rw [← hparity]
    exact (he.performs hs).prims
      ((performs_lit 2 _).prims (hmod.prims ((performs_lit 1 _).prims htest)))
  | @compare l r op ps qs hl hr =>
    have htest := performs_binary (p := .rel op) rfl rfl
      (a := l.denote (S.value σ)) (b := r.denote (S.value σ)) s
    exact (hl.performs hs).prims ((hr.performs (hs.push _)).prims htest)

/-! ## statements -/

/-- integers as the evaluator prints them -/
def printedText (ns : List Int) : String := String.join (ns.map fun n => intText n ++ "\n")

theorem printedText_append (ns ms : List Int) :
    printedText (ns ++ ms) = printedText ns ++ printedText ms := by
  rw [printedText, List.map_append, String.join_append]
  rfl

/-- the state `t` comes from `s` by printing `out`; cells hold the store `σ` and the stack is as it
was -/
structure Leaves (S : Scope) (σ : Store) (out : String) (s t : State) : Prop where
  holds : Holds S σ t
  stack : t.stack = s.stack
  printed : ∃ ns, t.printed = s.printed ++ ns ∧ out = printedText ns

namespace Leaves

variable {t u : State} {out out' : String}

theorem refl (h : Holds S σ s) : Leaves S σ "" s s :=
  ⟨h, rfl, [], (List.append_nil _).symm, rfl⟩

theorem trans (h : Leaves S σ out s t) (h' : Leaves S σ' out' t u) :
    Leaves S σ' (out ++ out') s u := by
  obtain ⟨ns, hns, rfl⟩ := h.printed
  obtain ⟨ms, hms, rfl⟩ := h'.printed
  refine ⟨h'.holds, h'.stack.trans h.stack, ns ++ ms, ?_, (printedText_append ns ms).symm⟩
  rw [hms, hns, List.append_assoc]

end Leaves

theorem flag_ne_zero {b : Bool} (h : b = true) : flag b ≠ 0 := by
  rw [h]
  decide

theorem performs_assign {x : String} {e : Expr} {is : List Item}
    (h : StatementItems S (.assign x e) is) (hs : Holds S σ s) :
    ∃ t, Performs is s t ∧
      Leaves S (Function.update σ x (e.denote (S.value σ))) "" s t := by
  cases h with
  | assign he hc hv =>
    have hstore : Prim.store.step ((s.push (e.denote (S.value σ))).push (S.vars.idxOf x)) =
        some { s with cells := s.cells.set (S.vars.idxOf x) (e.denote (S.value σ)) } := by
      show (State.cell? _ _).map _ = _
      rw [((hs.push _).push _).cell? hv, Int.toNat_natCast]
      rfl
    exact ⟨_, (he.performs hs).prims ((performs_lit _ _).prims (.prim hstore)), hs.store hv _, rfl,
      [], (List.append_nil _).symm, rfl⟩

theorem performs_print {e : Expr} {is : List Item} (h : StatementItems S (.print e) is)
    (hs : Holds S σ s) :
    ∃ t, Performs is s t ∧ Leaves S σ (intText (e.denote (S.value σ)) ++ "\n") s t := by
  cases h with
  | print he =>
    have hprint : Prim.print.step (s.push (e.denote (S.value σ))) =
        some { s with printed := s.printed ++ [e.denote (S.value σ)] } := rfl
    refine ⟨_, (he.performs hs).prims (.prim hprint), hs, rfl, _, rfl, ?_⟩
    rw [printedText, List.map_singleton, String.join_cons, String.join_nil, String.append_empty]

mutual

/-- **Code follows meaning**, one case for each rule of `Runs`. -/
theorem Runs.performs :
    ∀ {c : Statement} {σ σ' : Store} {out : String} {is : List Item} {s : State},
    Runs S c σ σ' out → StatementItems S c is → Holds S σ s →
      ∃ t, Performs is s t ∧ Leaves S σ' out s t
  | _, _, _, _, _, _, .assign, h, hs => performs_assign h hs
  | _, _, _, _, _, _, .call _ _, h, _ => nomatch h
  | _, _, _, _, _, _, .block hruns, .block h, hs => RunsAll.performs hruns h hs
  | _, σ, _, _, _, s, .ifTrue hc hruns, .ifThen hcode h, hs => by
    obtain ⟨t, hbody, hleaves⟩ := Runs.performs hruns h hs
    exact ⟨t, (hcode.performs hs).append (.branch_taken rfl (flag_ne_zero hc) hbody), hleaves⟩
  | _, σ, _, _, _, s, .ifFalse hc, .ifThen hcode h, hs => by
    have htest := hcode.performs hs
    rw [hc] at htest
    exact ⟨s, htest.append (.branch_skipped rfl), .refl hs⟩
  | _, σ, _, _, _, s, .whileTrue hc hruns hagain, .whileDo hcode h, hs => by
    obtain ⟨t, hbody, hleaves⟩ := Runs.performs hruns h hs
    obtain ⟨u, hloop, hleaves'⟩ := Runs.performs hagain (.whileDo hcode h) hleaves.holds
    exact ⟨u, .loop_again (hcode.performs hs) rfl (flag_ne_zero hc) hbody hloop,
      hleaves.trans hleaves'⟩
  | _, σ, _, _, _, s, .whileFalse hc, .whileDo hcode h, hs => by
    have htest := hcode.performs hs
    rw [hc] at htest
    exact ⟨_, .loop_left htest rfl, .refl hs⟩
  | _, _, _, _, _, _, .print, h, hs => performs_print h hs

theorem RunsAll.performs : ∀ {cs : List Statement} {σ σ' : Store} {out : String} {is : List Item}
    {s : State}, RunsAll S cs σ σ' out → StatementsItems S cs is → Holds S σ s →
      ∃ t, Performs is s t ∧ Leaves S σ' out s t
  | _, _, _, _, _, s, .nil, .nil, hs => ⟨s, .nil, .refl hs⟩
  | _, _, _, _, _, _, .cons hruns hrest, .cons h hr, hs => by
    obtain ⟨t, hfirst, hleaves⟩ := Runs.performs hruns h hs
    obtain ⟨u, hlast, hleaves'⟩ := RunsAll.performs hrest hr hleaves.holds
    exact ⟨u, hfirst.append hlast, hleaves.trans hleaves'⟩

end

/-! ## names that the evaluator knows -/

/-- a frame that shows a scope has its names as what they are -/
theorem lookup_shows {F : Frame} (h : F.Shows S σ) (x : String) :
    (F.lookup (.str x)).map Prod.fst = S.kind x := by
  rw [Frame.lookup_kind, h.consts, h.get?_var, h.procs, Option.isSome_map, Option.isSome_map,
    Scope.kind]
  by_cases hv : x ∈ S.vars <;> simp [hv]

theorem find?_single (F : Frame) (x : Value) :
    Frames.find? x [F] = (F.lookup x).map fun (kind, v) => (kind, v, 1) :=
  find?_nested 0 F x

theorem kind?_shows {F : Frame} (h : F.Shows S σ) : Frames.kind? [F] = S.kind := by
  funext x
  rw [Frames.kind?_cons, lookup_shows h]
  exact Option.or_none

theorem covers_shows {F : Frame} {T : Target} (h : F.Shows S σ) (hblock : ∀ p, S.block p = none) :
    Evaluator.Covers T [F] S := by
  refine ⟨fun x kind v n hx => ?_, fun p b hb => ?_, fun p b hb => ?_⟩
  · rw [find?_single, Option.map_eq_some_iff] at hx
    obtain ⟨⟨kind', v'⟩, hlookup, heq⟩ := hx
    cases heq
    rw [← lookup_shows h, hlookup]
    rfl
  · rw [hblock p] at hb
    cases hb
  · rw [hblock p] at hb
    cases hb

/-! ## programs -/

theorem cells_allot (xs : List String) (s : State) :
    (xs.foldl State.allot s).cells = s.cells ++ List.replicate xs.length 0 := by
  induction xs generalizing s with
  | nil => exact (List.append_nil _).symm
  | cons x xs ih =>
    rw [List.foldl_cons, ih, State.allot, List.length_cons, List.replicate_succ, List.append_assoc]
    rfl

/-- the cells of new variables hold zero -/
theorem holds_allot (S : Scope) : Holds S (fun _ => 0) (S.vars.foldl State.allot {}) := by
  intro x hx
  rw [cells_allot, List.nil_append, List.getElem?_replicate,
    if_pos (List.idxOf_lt_length_of_mem hx)]

theorem allot_keeps (xs : List String) (s : State) :
    (xs.foldl State.allot s).stack = s.stack ∧ (xs.foldl State.allot s).printed = s.printed := by
  induction xs generalizing s with
  | nil => exact ⟨rfl, rfl⟩
  | cons x xs ih => exact ih (s.allot x)

end Pl0Kit.Forth

namespace Pl0Kit

open Forth

theorem foldl_addNew {xs ys : List String} (h : (ys ++ xs).Nodup) :
    xs.foldl addNew ys = ys ++ xs := by
  induction xs generalizing ys with
  | nil => exact (List.append_nil ys).symm
  | cons x xs ih =>
    have hx : x ∉ ys := fun hx =>
      (List.nodup_append.1 h).2.2 x hx x List.mem_cons_self rfl
    rw [List.append_cons] at h ⊢
    rw [List.foldl_cons, addNew, if_neg fun hc => hx (List.contains_iff_mem.1 hc), ih h]

theorem vars_scope (consts : Option (List (String × Nat))) {vars : Option (List String)}
    (procs : List (String × Block)) (body : Statement) (h : (vars.getD []).Nodup) :
    (Block.scope (.mk consts vars procs body)).vars = vars.getD [] := by
  show (vars.getD []).foldl addNew [] = _
  rw [foldl_addNew (by rwa [List.nil_append]), List.nil_append]

theorem constantOf_eq_none {ds : List (String × Nat)} {x : String} (h : x ∉ ds.map Prod.fst) :
    constantOf ds x = none := by
  induction ds with
  | nil => rfl
  | cons d ds ih =>
    rw [List.map_cons, List.mem_cons, not_or] at h
    rw [constantOf, List.foldl_cons, if_neg h.1]
    exact ih h.2

/-- **Translated programs agree with the evaluator.**  Let a program without procedures, calls and
divisions be parsed, where no name is declared twice and only variables are assigned to.  Let no
variable have the name of a word that the text uses: `repeat` if there is a loop, `mod` if there is
a test of parity, and `variable` unless it is declared last.  If the program is translated to a
Forth text and the evaluator comes to an end, then the words of the text, run with a budget that is
large enough, print the integers that the evaluator prints, and leave nothing on the stack. -/
theorem forth_program_agrees {source text : String} {p : Program} {r v : Value} {t : Translator}
    {F : Frame} {fuel : Nat} {ev : Evaluator} (hparse : (parseText source).1 = .ok p)
    (hprocs : p.block.procs = []) (hcalls : p.block.body.calls = []) (hdiv : p.Within .noDivision)
    (hnames : p.block.names.Nodup)
    (hassigned : ∀ x ∈ p.block.body.assigned, x ∈ p.block.scope.vars)
    (hwords : ∀ w ∈ p.block.body.forthWords, w ∉ p.block.scope.vars)
    (hlast : "variable" ∉ p.block.scope.vars.dropLast)
    (htranslate : Forth.translate p.toValue {} = (.ok r, text, t))
    (heval : Evaluator.run fuel p.toValue {} = (.ok (F, v), ev)) :
    ∃ (s : State) (K : Nat), (∀ k, K ≤ k → interpret k (Text.words text) {} = some s) ∧
      s.stack = [] ∧ ev.out = printedText s.printed := by
  have hshaped := shaped_of_parse hparse
  obtain ⟨⟨consts, vars, procs, body⟩⟩ := p
  obtain rfl : procs = [] := hprocs
  obtain ⟨-, hnodup, hapart⟩ := List.nodup_append.1 hnames
  rw [List.map_nil, List.append_nil] at hnodup hapart
  have hvars := vars_scope consts [] body hnodup
  have hfree : ∀ x ∈ vars.getD [], constantOf (consts.getD []) x = none := fun x hx =>
    constantOf_eq_none fun hc => hapart x hc x hx rfl
  have hsound : Sound (Block.scope (.mk consts vars [] body)) := by
    refine ⟨fun x hx => hshaped.names x ?_, fun x n hc => Generator.nat_of_const hc⟩
    have hmem := Generator.mem_varsSymbols (hvars ▸ hx)
    simp [Program.symbols, Block.symbols, hmem]
  obtain ⟨hfits, is, ws, hitems, hreads, htext⟩ := program_writes rfl hsound hvars hfree hdiv.2
    hcalls (fun x hx => hvars ▸ hassigned x hx) hwords htranslate
  -- the evaluator gives the meaning of the statement
  have hshows := Evaluator.opened_shows (b := .mk consts vars [] body) List.nodup_nil
  have hassembly := Generator.relates_of_mem Generator.assembly List.mem_cons_self
  obtain ⟨es, hcode⟩ := (Generator.statementCode_iff hassembly body 0 _).2
    ⟨rfl, (kind?_shows hshows).symm ▸ hfits⟩
  obtain ⟨σ, hruns, -⟩ := Evaluator.run_program (covers_shows hshows fun _ => rfl) List.nodup_nil
    hcode heval
  -- and the words of the text follow it
  have hholds := holds_allot (Block.scope (.mk consts vars [] body))
  rw [hvars] at hholds
  obtain ⟨s, ⟨K, hK⟩, hleaves⟩ := Runs.performs hruns hitems hholds
  obtain ⟨hstack, hprinted⟩ := allot_keeps (vars.getD []) {}
  obtain ⟨ns, hout, hlines⟩ := hleaves.printed
  refine ⟨s, K, fun k hk => ?_, hleaves.stack.trans hstack, ?_⟩
  · rw [hvars] at hreads
    have hlast' : "variable" ∉ (vars.getD []).dropLast := hvars ▸ hlast
    have hrun := @interpret_text [] (vars.getD []) ws is hnodup hlast' hreads k {}
      dictionary_nil.symm rfl
    rw [htext, hrun, hK k hk]
  · rw [hout, hprinted]
    exact hlines

/-- adds up to a constant and prints odd values with the sign turned -/
def turnOdd : Program :=
  ⟨.mk (some [("n", 1)]) (some ["x"]) []
    (.whileDo (.compare (.mk none (.mk (.name "x") []) []) .lt (.mk none (.mk (.name "n") []) []))
      (.block [.assign "x" (.mk none (.mk (.name "x") []) [(.plus, .mk (.name "n") [])]),
        .ifThen (.odd (.mk none (.mk (.name "x") []) []))
          (.print (.mk (some .minus) (.mk (.name "x") []) []))]))⟩

set_option maxRecDepth 2000 in
theorem turnOdd_parses : (parseText
    "const n = 1; var x; while x < n do begin x := x + n; if odd x then ! -x end.").1 =
      .ok turnOdd := by
  with_unfolding_all rfl

def turnOddText : String :=
  "variable x\n: run  begin  x @  1  <  while  x @  1 + x !  " ++
    "x @ 2 mod 1 = if  x @ -1 *  .  then  repeat  ;\nrun\n\n"

theorem turnOdd_translates :
    ∃ r t, Forth.translate turnOdd.toValue {} = (.ok r, turnOddText, t) := by
  have hok : (Forth.translate turnOdd.toValue {}).1.isOk = true := by
    decide +kernel
  have htext : (Forth.translate turnOdd.toValue {}).2.1 = turnOddText := by
    decide +kernel
  generalize Forth.translate turnOdd.toValue {} = r at hok htext
  obtain ⟨_ | v, text, t⟩ := r
  · cases hok
  · cases htext
    exact ⟨v, t, rfl⟩

theorem turnOdd_evaluates : ∃ F v ev, Evaluator.run 32 turnOdd.toValue {} = (.ok (F, v), ev) ∧
    ev.out = "-1\n" := by
  have hok : (Evaluator.run 32 turnOdd.toValue {}).1.isOk = true := by
    decide +kernel
  have hout : (Evaluator.run 32 turnOdd.toValue {}).2.out = "-1\n" := by
    decide +kernel
  generalize Evaluator.run 32 turnOdd.toValue {} = r at hok hout
  obtain ⟨_ | ⟨F, v⟩, ev⟩ := r
  · cases hok
  · exact ⟨F, v, ev, rfl, hout⟩

theorem turnOdd_agrees : ∃ (s : State) (K : Nat),
    (∀ k, K ≤ k → interpret k (Text.words turnOddText) {} = some s) ∧
      s.stack = [] ∧ "-1\n" = printedText s.printed := by
  have hdiv : turnOdd.Within .noDivision := by
    simp [turnOdd, Program.Within, Block.Within, Block.procsWithin, Statement.Within,
      Statement.Within.allWithin, Condition.Within, Expr.Within, Expr.tailWithin, Term.Within,
      Term.tailWithin, Factor.Within, Fragment.noDivision]
  obtain ⟨r, t, htranslate⟩ := turnOdd_translates
  obtain ⟨F, v, ev, heval, hout⟩ := turnOdd_evaluates
  rw [← hout]
  exact forth_program_agrees turnOdd_parses rfl rfl hdiv (by decide) (by decide) (by decide)
    (by decide) htranslate heval

/-- after a variable `repeat` no word closes a loop, and after a variable `variable` no other is
made -/
example (k : Nat) :
    interpret k (textWords ["repeat"] ["begin", "repeat", "@", "1", "<", "while", "repeat"]) {} =
        none ∧
      interpret k (textWords ["variable", "x"] []) {} = none := ⟨rfl, rfl⟩

/-- a call that is never made, by the name of a word that closes a loop -/
def callRepeat : Program :=
  ⟨.mk none none []
    (.block
      [.whileDo
          (.compare (.mk none (.mk (.number 1) []) []) .lt (.mk none (.mk (.number 0) []) []))
          (.call "repeat"),
        .print (.mk none (.mk (.number 7) []) [])])⟩

def callRepeatText : String := ": run  begin  1 0 <  while  repeat  repeat  7  .  ;\nrun\n\n"

/-- Called names are not looked up, so a name that is declared nowhere comes into the text as a word
of its own.  Here it ends the loop it stands in: the evaluator prints seven and the text is no
definition. -/
theorem call_closes_loop :
    (parseText "BEGIN WHILE 1 < 0 DO CALL repeat; ! 7 END .").1 = .ok callRepeat ∧
      callRepeat.block.procs = [] ∧ callRepeat.Within .noDivision ∧ callRepeat.block.names.Nodup ∧
      callRepeat.block.body.assigned = [] ∧
      Forth.translate callRepeat.toValue {} = (.ok .none, callRepeatText, {}) ∧
      Evaluator.run 28 callRepeat.toValue {} = (.ok ({}, .list [.none, .none]), { out := "7\n" }) ∧
      ∀ k, interpret k (Text.words callRepeatText) {} = none := by
  refine ⟨by with_unfolding_all rfl, rfl, ?_, List.nodup_nil, rfl, by with_unfolding_all rfl,
    by with_unfolding_all rfl, fun k => ?_⟩
  · simp [callRepeat, Program.Within, Block.Within, Block.procsWithin, Statement.Within,
      Statement.Within.allWithin, Condition.Within, Expr.Within, Expr.tailWithin, Term.Within,
      Term.tailWithin, Factor.Within, Fragment.noDivision]
  · have hwords : Text.words callRepeatText =
        [":", "run", "begin", "1", "0", "<", "while", "repeat", "repeat", "7", ".", ";",
          "run"] := by
      decide +kernel
    have hdefine : define? (fun _ => none)
        ["begin", "1", "0", "<", "while", "repeat", "repeat", "7", "."] = none := by
      decide +kernel
    rw [hwords]
    show (define? (fun _ => none) ["begin", "1", "0", "<", "while", "repeat", "repeat", "7",
      "."]).bind (execAll k · {}) = none
    rw [hdefine]
    rfl

end Pl0Kit
