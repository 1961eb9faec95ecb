import Pl0Kit.Proofs.Execution
import Pl0Kit.Proofs.Simulation

/-!
# Names of a compiled program

In a program whose procedures have no declarations of their own, all code is generated with the
names of one frame in scope, up to procedures that are declared later (`StatementCode.widen`).
`Compiles` says what that frame holds: constants, the labels of cells of variables, and the labels
of code of procedures. From it follow both what the evaluator asks of names (`Compiles.covers`) and
what the machine asks (`ProgramCode.linked`).
-/

namespace Pl0Kit.Generator

open Machine

/-! ## more names in scope -/

/-- every name that `fs` knows stands for the same thing in `gs` -/
def Wider (fs gs : Frames) : Prop :=
  ∀ ⦃x : String⦄ ⦃kind : EntryKind⦄ ⦃v : Value⦄ ⦃n : Nat⦄, fs.find? (.str x) = some (kind, v, n) →
    ∃ k, gs.find? (.str x) = some (kind, v, k)

section Wider

variable {fs gs : Frames} {T : Target}

mutual

theorem ExprCode.widen (hw : Wider fs gs) : ∀ {e : Expr} {es : List Event},
    ExprCode fs e es → ExprCode gs e es
  | _, _, .mk ht hr => .mk (ht.widen hw) (hr.widen hw)

theorem TermsCode.widen (hw : Wider fs gs) : ∀ {xs : List (AddOp × Term)} {es : List Event},
    TermsCode fs xs es → TermsCode gs xs es
  | _, _, .nil => .nil
  | _, _, .cons hx hr => .cons (hx.widen hw) (hr.widen hw)

theorem TermCode.widen (hw : Wider fs gs) : ∀ {x : Term} {es : List Event},
    TermCode fs x es → TermCode gs x es
  | _, _, .mk hf hr => .mk (hf.widen hw) (hr.widen hw)

theorem FactorsCode.widen (hw : Wider fs gs) : ∀ {xs : List (MulOp × Factor)} {es : List Event},
    FactorsCode fs xs es → FactorsCode gs xs es
  | _, _, .nil => .nil
  | _, _, .cons hx hr => .cons (hx.widen hw) (hr.widen hw)

theorem FactorCode.widen (hw : Wider fs gs) : ∀ {x : Factor} {es : List Event},
    FactorCode fs x es → FactorCode gs x es
  | _, _, .var hx => (hw hx).elim fun _ => .var
  | _, _, .const hx => (hw hx).elim fun _ => .const
  | _, _, .number => .number
  | _, _, .paren h => .paren (h.widen hw)

end

theorem ConditionCode.widen (hw : Wider fs gs) {c : Condition} {es : List Event}
    (h : ConditionCode T fs c es) : ConditionCode T gs c es := by
  cases h with
  | odd he => exact .odd (he.widen hw)
  | compare hl hr hop => exact .compare (hl.widen hw) (hr.widen hw) hop

mutual

theorem StatementCode.widen (hw : Wider fs gs) : ∀ {n m : Nat} {s : Statement} {es : List Event},
    StatementCode T fs n s m es → StatementCode T gs n s m es
  | _, _, _, _, .assign he hx => (hw hx).elim fun _ => .assign (he.widen hw)
  | _, _, _, _, .call hp => (hw hp).elim fun _ => .call
  | _, _, _, _, .block hs => .block (hs.widen hw)
  | _, _, _, _, .ifThen hc hs => .ifThen (hc.widen hw) (hs.widen hw)
  | _, _, _, _, .whileDo ht hb hc hs => .whileDo ht hb (hc.widen hw) (hs.widen hw)
  | _, _, _, _, .print he => .print (he.widen hw)

theorem StatementsCode.widen (hw : Wider fs gs) : ∀ {n m : Nat} {ss : List Statement}
    {es : List Event}, StatementsCode T fs n ss m es → StatementsCode T gs n ss m es
  | _, _, _, _, .nil => .nil
  | _, _, _, _, .cons hs hr => .cons (hs.widen hw) (hr.widen hw)

end

end Wider

/-- the frame `f` has the constants and variables of `g`, and its procedures and more -/
structure Declares (g f : Frame) : Prop where
  consts : f.consts = g.consts
  vars : f.vars = g.vars
  procs : ∀ ⦃p : String⦄ ⦃v : Value⦄, g.procs.get? (.str p) = some v →
    f.procs.get? (.str p) = some v

theorem Declares.lookup {f g : Frame} (h : Declares g f) {x : String} {r : EntryKind × Value}
    (hr : g.lookup (.str x) = some r) : f.lookup (.str x) = some r := by
  rw [Frame.lookup] at hr ⊢
  rw [h.consts, h.vars]
  cases hc : g.consts.get? (.str x) with
  | some v => rwa [hc] at hr
  | none =>
    rw [hc] at hr
    cases hv : g.vars.get? (.str x) with
    | some v => rwa [hv] at hr
    | none =>
      rw [hv] at hr
      cases hp : g.procs.get? (.str x) with
      | some v =>
        rw [hp] at hr
        rw [h.procs hp]
        exact hr
      | none =>
        rw [hp] at hr
        cases hr

theorem Declares.wider {f g : Frame} (h : Declares g f) (j k : Nat) :
    Wider (nested j g) (nested k f) := by
  intro x kind v n hx
  rw [find?_nested, Option.map_eq_some_iff] at hx
  obtain ⟨⟨kind', v'⟩, hr, he⟩ := hx
  cases he
  exact ⟨k + 1, by rw [find?_nested, h.lookup hr]; rfl⟩

/-! ## procedures -/

/-- the code of the procedure `p` stands in `es` behind the label that the frame `f` has for it -/
def Stands (T : Target) (f : Frame) (es : List Event) (p : String) (b : Block) : Prop :=
  ∃ l n m cs pre post, f.procs.get? (.str p) = some (.str l) ∧
    es = pre ++ .procOpen l :: (cs ++ .procClose l :: post) ∧ StatementCode T [f] n b.body m cs

section Procedures

variable {T : Target} {n m : Nat} {f f' : Frame} {procs : List (String × Block)}
  {es : List Event} {p : String} {b : Block}

theorem Stands.prepend (h : Stands T f es p b) (ds : List Event) : Stands T f (ds ++ es) p b := by
  obtain ⟨l, n, m, cs, pre, post, hl, rfl, hs⟩ := h
  exact ⟨l, n, m, cs, ds ++ pre, post, hl, by rw [List.append_assoc], hs⟩

theorem Stands.extend (h : Stands T f es p b) (ds : List Event) : Stands T f (es ++ ds) p b := by
  obtain ⟨l, n, m, cs, pre, post, hl, rfl, hs⟩ := h
  exact ⟨l, n, m, cs, pre, post ++ ds, hl, by simp, hs⟩

theorem declared_bare {consts : Option (List (String × Nat))} {vars : Option (List String)}
    {body : Statement} {inner : List (String × Block)} (h : (Block.mk consts vars inner body).Bare)
    (n : Nat) (f : Frame) : declared T n f consts vars = f := by
  obtain ⟨hc, hv, -⟩ := h
  rw [declared, hc, hv]
  rfl

/-- procedures with different names are all declared, and their code can use all of them -/
theorem ProcsCode.stands (h : ProcsCode T [] n f procs m f' es)
    (hnd : (procs.map Prod.fst).Nodup) (hbare : ∀ q ∈ procs, q.2.Bare)
    (hnew : ∀ q ∈ procs, f.procs.get? (.str q.1) = none) :
    Declares f f' ∧ (∀ p, procs.lookup p = none → f'.procs.get? (.str p) = f.procs.get? (.str p)) ∧
      ∀ p b, procs.lookup p = some b → Stands T f' es p b := by
  induction h with
  | nil => exact ⟨⟨rfl, rfl, fun _ _ h => h⟩, fun _ _ => rfl, nofun⟩
  | @cons n m k f f' p consts vars inner rest body cs ds g label _ hg hs _ ih =>
    rw [List.map_cons, List.nodup_cons] at hnd
    rw [List.forall_mem_cons] at hbare hnew
    have hget : ∀ q, g.procs.get? (.str q) =
        if q = p then some (.str label) else f.procs.get? (.str q) := by
      intro q
      rw [hg, Frame.declare, Table.get?_put]
    have hrest : ∀ q ∈ rest, g.procs.get? (.str q.1) = none := by
      intro q hq
      have hqp : q.1 ≠ p := fun h => hnd.1 (h ▸ List.mem_map.2 ⟨q, hq, rfl⟩)
      rw [hget, if_neg hqp]
      exact hnew.2 q hq
    obtain ⟨hdecl, hold, hstands⟩ := ih hnd.2 hbare.2 hrest
    refine ⟨⟨?_, ?_, fun q v hq => ?_⟩, fun q hq => ?_, fun q b hq => ?_⟩
    · rw [hdecl.consts, hg]
      rfl
    · rw [hdecl.vars, hg]
      rfl
    · have hqp : q ≠ p := by
        rintro rfl
        rw [hnew.1] at hq
        cases hq
      exact hdecl.procs (by rw [hget, if_neg hqp, hq])
    · rw [List.lookup_cons] at hq
      split at hq
      · cases hq
      · rename_i hqp
        rw [hold q hq, hget, if_neg (by simpa using hqp)]
    · rw [List.lookup_cons] at hq
      split at hq
      · rename_i hqp
        obtain rfl : q = p := by simpa using hqp
        cases hq
        -- the body was generated below an empty frame, with later procedures not yet known
        have hframes : declared T (n + 1) {} consts vars :: [g] = nested 1 g := by
          rw [declared_bare hbare.1]
          rfl
        have hcode := (hframes ▸ hs).widen (hdecl.wider 1 0)
        refine ⟨label, _, m, cs, _ :: cellEvents T (n + 1) (vars.getD []), ds, ?_, rfl, hcode⟩
        exact hdecl.procs (by rw [hget, if_pos rfl])
      · have hrest := (hstands q b hq).prepend (.procHead p ::
          (cellEvents T (n + 1) (vars.getD []) ++ .procOpen label :: (cs ++ [.procClose label])))
        simpa using hrest

end Procedures

/-! ## variables -/

theorem mem_addNew {xs : List String} {x y : String} (h : y ∈ addNew xs x) : y = x ∨ y ∈ xs := by
  rw [addNew] at h
  split at h
  · exact .inr h
  · rcases List.mem_append.1 h with h | h
    · exact .inr h
    · exact .inl (List.mem_singleton.1 h)

/-- variables have the labels they were declared with last -/
theorem vars_declareAll {T : Target} {Q : String → String → Prop} (xs : List String) {n : Nat}
    {g : Frame} {ys : List String} (label : String → String) (hnd : ys.Nodup)
    (hg : g.vars = .ofNames ys fun x => .str (label x)) (hys : ∀ x ∈ ys, Q x (label x))
    (hxs : ∀ k x, .cell (varLabel T k x) ∈ cellEvents T n xs → Q x (varLabel T k x)) :
    ∃ label' : String → String,
      (declareAll T n g xs).vars = .ofNames (xs.foldl addNew ys) (fun x => .str (label' x)) ∧
        ∀ x ∈ xs.foldl addNew ys, Q x (label' x) := by
  induction xs generalizing n g ys label with
  | nil => exact ⟨label, hg, hys⟩
  | cons x xs ih =>
    have hvars : (g.update (.str x) (.str (varLabel T n x))).vars = .ofNames (addNew ys x)
        fun y => .str (Function.update label x (varLabel T n x) y) := by
      show g.vars.put (.str x) (.str (varLabel T n x)) = _
      rw [hg, Table.put_ofNames_addNew hnd]
      exact congrArg _ (Function.comp_update Value.str label x _).symm
    refine ih _ (nodup_foldl_addNew [x] hnd) hvars (fun y hy => ?_)
      fun k y hy => hxs k y (List.mem_cons_of_mem _ hy)
    by_cases hyx : y = x
    · rw [hyx, Function.update_self]
      exact hxs n x List.mem_cons_self
    · rw [Function.update_of_ne hyx]
      exact hys y ((mem_addNew hy).resolve_left hyx)

theorem declareAll_keeps (T : Target) (xs : List String) (n : Nat) (g : Frame) :
    (declareAll T n g xs).consts = g.consts ∧ (declareAll T n g xs).procs = g.procs := by
  induction xs generalizing n g with
  | nil => exact ⟨rfl, rfl⟩
  | cons x xs ih => exact ih (n + 1) (g.update (.str x) (.str (varLabel T n x)))

/-! ## the frame of a program -/

/-- what the frame `f` of a program holds when its code `es` has been generated -/
structure Compiles (T : Target) (S : Scope) (label : String → String) (f : Frame)
    (es : List Event) : Prop where
  consts : ∀ x, f.consts.get? (.str x) = (S.const x).map .int
  vars : f.vars = .ofNames S.vars fun x => .str (label x)
  cell : ∀ x ∈ S.vars, .cell (label x) ∈ es ∧ ∃ k, label x = varLabel T k x
  unknown : ∀ p, S.block p = none → f.procs.get? (.str p) = none
  stands : ∀ p b, S.block p = some b → Stands T f es p b

theorem ProgramCode.compiles {T : Target} {p : Program} {m : Nat} {f : Frame} {es : List Event}
    (h : ProgramCode T p m f es) (hp : p.Flat) : ∃ label, Compiles T p.block.scope label f es := by
  obtain ⟨hnd, hbare⟩ := hp
  cases h with
  | @mk k m f consts vars procs body cs ds hprocs _ =>
    obtain ⟨hvars, hnone⟩ := Evaluator.defineAll_keeps (consts.getD []) {}
    obtain ⟨hconsts', hnone'⟩ := declareAll_keeps T (vars.getD []) 0 (defineAll {} (consts.getD []))
    have hempty : (declared T 0 {} consts vars).procs = [] := hnone'.trans hnone
    obtain ⟨hdecl, hold, hstands⟩ := hprocs.stands hnd hbare fun q _ => by
      rw [hempty]
      rfl
    obtain ⟨label, hlabel, hcell⟩ := vars_declareAll (T := T) (n := 0)
      (Q := fun x l => .cell l ∈ cellEvents T 0 (vars.getD []) ∧ ∃ k, l = varLabel T k x)
      (vars.getD []) id List.nodup_nil hvars nofun fun k x hx => ⟨hx, k, rfl⟩
    refine ⟨label, fun x => ?_, ?_, fun x hx => ⟨?_, (hcell x hx).2⟩, fun p hp => ?_,
      fun p b hp => ?_⟩
    · rw [hdecl.consts, declared, hconsts']
      exact Evaluator.get?_defineAll _ x rfl
    · exact hdecl.vars.trans hlabel
    · exact List.mem_cons_of_mem _ (List.mem_append_left _ (hcell x hx).1)
    · rw [hold p hp, hempty]
      rfl
    · exact ((hstands p b hp).extend _).prepend (.start :: cellEvents T 0 (vars.getD []))

namespace Compiles

variable {T : Target} {S : Scope} {label : String → String} {f : Frame} {es : List Event}
  {x : String} {v : Value} {kind : EntryKind} {n : Nat}

/-- a name stands for a constant, a variable or a procedure, in this order -/
theorem find (h : Compiles T S label f es) (hx : Frames.find? (.str x) [f] = some (kind, v, n)) :
    S.kind x = some kind ∧ match kind with
      | .const => (S.const x).map .int = some v
      | .var => v = .str (label x)
      | .proc => f.procs.get? (.str x) = some v := by
  have hl : f.lookup (.str x) = some (kind, v) := by
    have hfind := find?_nested 0 f (.str x)
    rw [nested, hx] at hfind
    obtain ⟨⟨kind', v'⟩, hr, he⟩ := Option.map_eq_some_iff.1 hfind.symm
    cases he
    exact hr
  rw [Frame.lookup, h.consts, h.vars, Table.get?_ofNames] at hl
  rw [Scope.kind]
  cases hc : S.const x with
  | some k =>
    rw [hc] at hl
    cases hl
    exact ⟨rfl, rfl⟩
  | none =>
    rw [hc] at hl
    by_cases hv : x ∈ S.vars
    · rw [if_pos hv] at hl
      cases hl
      exact ⟨by simp [hv], rfl⟩
    · rw [if_neg hv] at hl
      cases hp : f.procs.get? (.str x) with
      | none =>
        rw [hp] at hl
        cases hl
      | some w =>
        rw [hp] at hl
        cases hl
        have hb : (S.block x).isSome = true := by
          rw [Option.isSome_iff_ne_none]
          intro hb
          rw [h.unknown x hb] at hp
          cases hp
        exact ⟨by simp [hv, hb], rfl⟩

/-- the evaluator knows the names of compiled code -/
theorem covers (h : Compiles T S label f es) (hbare : ∀ p b, S.block p = some b → b.Bare) :
    Evaluator.Covers T [f] S := by
  refine ⟨fun x kind v n hx => (h.find hx).1, hbare, fun p b hp => ?_⟩
  obtain ⟨_, n, m, cs, _, _, _, _, hs⟩ := h.stands p b hp
  exact ⟨n, m, cs, hs⟩

end Compiles

/-! ## links -/

/-- constants are natural numbers -/
theorem nat_of_const {b : Block} {x : String} {n : Int} (h : b.scope.const x = some n) :
    ∃ k : Nat, n = k := by
  obtain ⟨consts, vars, procs, body⟩ := b
  refine List.foldlRecOn (motive := fun r => ∀ n : Int, r = some n → ∃ k : Nat, n = k)
    (consts.getD []) _ ?_ ?_ n h
  · exact fun n hn => nomatch hn
  intro r hr d _ n hn
  by_cases hx : x = d.1
  · rw [if_pos hx] at hn
    exact ⟨d.2, (Option.some.inj hn).symm⟩
  · rw [if_neg hx] at hn
    exact hr n hn

section Links

variable {p : Program} {m : Nat} {f : Frame} {es : List Event} {label : String → String}

theorem mem_of_block {a b : Block} {q : String} (h : a.scope.block q = some b) :
    (q, b) ∈ a.procs := by
  obtain ⟨consts, vars, procs, body⟩ := a
  obtain ⟨as, bs, hprocs, -⟩ := List.lookup_eq_some_iff.1 h
  show (q, b) ∈ procs
  rw [hprocs]
  exact List.mem_append_right _ List.mem_cons_self

theorem within_body {F : Fragment} {b : Block} (h : b.Within F) : b.body.Within F := by
  obtain ⟨consts, vars, procs, body⟩ := b
  exact h.2

theorem within_procs {F : Fragment} {b : Block} (h : b.Within F) : Block.procsWithin F b.procs := by
  obtain ⟨consts, vars, procs, body⟩ := b
  exact h.1

theorem within_proc {F : Fragment} {procs : List (String × Block)} (h : Block.procsWithin F procs)
    {q : String × Block} (hq : q ∈ procs) : q.2.Within F := by
  induction procs with
  | nil => cases hq
  | cons e procs ih =>
    rcases List.mem_cons.1 hq with rfl | hq
    · exact h.1
    · exact ih h.2 hq

/-- **The code of a program is linked**: names stand for numbers, cells and code. -/
theorem ProgramCode.linked (h : ProgramCode assembly p m f es) (hp : p.Shaped)
    (hw : p.Within .ordered) (hC : Compiles assembly p.block.scope label f es) :
    ∃ slot : String → Nat, Linked (itemsOf es) p.block.scope [f] slot ∧
      ∀ x ∈ p.block.scope.vars, operand (itemsOf es) (label x) = .int (slot x) ∧
        DataAt (itemsOf es) (slot x) := by
  have hcells : ∀ x, ∃ a : Nat, x ∈ p.block.scope.vars →
      operand (itemsOf es) (label x) = .int a ∧ DataAt (itemsOf es) a := by
    intro x
    by_cases hx : x ∈ p.block.scope.vars
    · obtain ⟨a, ha⟩ := h.operand_cell hp (hC.cell x hx).1
      exact ⟨a, fun _ => ha⟩
    · exact ⟨0, fun h => absurd h hx⟩
  obtain ⟨slot, hslot⟩ := Classical.skolem.1 hcells
  refine ⟨slot, ⟨h.getLast?_items, fun hl => ?_, fun {x v n} hx => ?_, fun {x v n} hx => ?_,
    fun {x y} hx hy he => ?_, fun {q v n} hq => ?_⟩, hslot⟩
  · obtain ⟨pre, hpre⟩ := hl
    exact h.operand_eq hp hpre.symm
  · obtain ⟨hkind, hv⟩ := hC.find hx
    obtain ⟨k, hk⟩ := Scope.const_of_kind hkind
    rw [hk] at hv
    obtain ⟨j, rfl⟩ := nat_of_const hk
    exact ⟨j, (Option.some.inj hv).symm, hk⟩
  · obtain ⟨hkind, hv⟩ := hC.find hx
    obtain ⟨hconst, hmem⟩ := Scope.var_of_kind hkind
    exact ⟨hconst, hmem, label x, hv, hslot x hmem⟩
  · -- cells that are the same have the same label, which tells the name
    have hlabel : label x = label y := by
      refine h.cell_inj hp (hC.cell x hx).1 (hC.cell y hy).1 ?_
      rw [(hslot x hx).1, (hslot y hy).1, he]
    obtain ⟨-, j, hj⟩ := hC.cell x hx
    obtain ⟨-, k, hk⟩ := hC.cell y hy
    rw [hj, hk] at hlabel
    exact (String.append_right_inj _).1 (serialLabel_inj hlabel).1
  · obtain ⟨hkind, hv⟩ := hC.find hq
    obtain ⟨-, -, b, hb⟩ := Scope.proc_of_kind hkind
    obtain ⟨l, j, k, cs, pre, post, hl, hes, hs⟩ := hC.stands q b hb
    have hbody := within_body (within_proc (within_procs hw) (mem_of_block hb))
    refine ⟨l, b, j, k, cs, itemsOf post, Option.some.inj (hv.symm.trans hl), hb, ?_, hs, hbody⟩
    exact ⟨itemsOf pre, by rw [hes]; simp [Event.items]⟩

end Links

end Pl0Kit.Generator
