import Pl0Kit.Proofs.Contracts
import Pl0Kit.Proofs.DeclaredNames

/-!
# What evaluation does to the frames

Every node is evaluated in a frame of its own, and an assignment writes into whatever frame its name
is found in.  From the outside a run can be seen in the variables that it assigns to, and in nothing
else: as many frames are open as before, they have the same constants and procedures, and a variable
has its value from before unless its name is assigned to in the tree or in a procedure that can be
reached from it by calls.  Conditions, expressions, terms and factors change nothing at all
(`evaluation_keeps_frames`).

* `Subtree`       a tree of one of the kinds that parsing builds;
* `Subtree.Reaches`  the blocks that calls can come to, by the procedures of the frames at the
                     start;
* `Frame.Kept`    what a run leaves as it was in one frame;
* `keeping U`     the contract that runs keep if they use nothing but `U`.
-/

namespace Pl0Kit

/-! ## trees and what they use -/

/-- what the statements of a block use, those of its procedures included -/
def Block.uses (b : Block) : List Use := b.blocks.flatMap fun c => c.body.uses

theorem Block.uses_body (b : Block) : b.body.uses ⊆ b.uses :=
  fun _ hu => List.mem_flatMap.2 ⟨b, b.mem_blocks, hu⟩

theorem Block.uses_proc {b : Block} {q : String × Block} (hq : q ∈ b.procs) :
    q.2.uses ⊆ b.uses := by
  intro u hu
  obtain ⟨c, hc, hcu⟩ := List.mem_flatMap.1 hu
  exact List.mem_flatMap.2 ⟨c, Block.subset_blocks hq hc, hcu⟩

/-- a tree of one of the kinds that parsing builds -/
inductive Subtree where
  | program (p : Program)
  | block (b : Block)
  | statement (s : Statement)
  | condition (c : Condition)
  | expr (e : Expr)
  | term (t : Term)
  | factor (f : Factor)

namespace Subtree

def toValue : Subtree → Value
  | program p => p.toValue
  | block b => b.toValue
  | statement s => s.toValue
  | condition c => c.toValue
  | expr e => e.toValue
  | term t => t.toValue
  | factor f => f.toValue

def uses : Subtree → List Use
  | program p => p.block.uses
  | block b => b.uses
  | statement s => s.uses
  | condition c => c.uses
  | expr e => readsOf e.symbols
  | term t => readsOf t.symbols
  | factor f => readsOf f.symbols

/-- trees that stand for a value -/
def IsValue : Subtree → Prop
  | condition _ | expr _ | term _ | factor _ => True
  | _ => False

/-- the trees that a run of `t` can come to where the frames `fs` are open: `t` itself, and the
blocks of the procedures that `fs` has for the names called in them.  Procedures that a tree
declares are part of the tree. -/
inductive Reaches (fs : Frames) (t : Subtree) : Subtree → Prop
  | self : Reaches fs t t
  | call {u : Subtree} {q : String} {name : Value} {b : Block} {n : Nat} : Reaches fs t u →
      .call q ∈ u.uses → fs.find? (.str q) = some (.proc, .procedure name b.toValue, n) →
        Reaches fs t (.block b)

/-- what is used in the trees that `t` reaches -/
def Needs (fs : Frames) (t : Subtree) (u : Use) : Prop := ∃ w, Reaches fs t w ∧ u ∈ w.uses

/-- the name is assigned to in the tree, or in a procedure that can be reached from it by calls -/
def Assigns (fs : Frames) (t : Subtree) (x : String) : Prop := t.Needs fs (.assign x)

end Subtree

/-! ## frames -/

/-- the second frame has the constants and procedures of the first one and all of its variables, and
those whose names are not in `A` with their values -/
structure Frame.Kept (A : String → Prop) (f g : Frame) : Prop where
  consts : g.consts = f.consts
  procs : g.procs = f.procs
  vars : ∀ k : Value, (∀ x, A x → k ≠ .str x) → g.vars.get? k = f.vars.get? k
  held : ∀ k : Value, (f.vars.get? k).isSome → (g.vars.get? k).isSome

theorem Table.get?_put_of_ne (t : Table) {x : String} {k : Value} (hk : k ≠ .str x) (v : Value) :
    (t.put (.str x) v).get? k = t.get? k := by
  have hx : (Value.str x).same k = false := by
    cases k with
    | str y =>
      have hxy : x ≠ y := fun h => hk (h ▸ rfl)
      simpa [Value.same] using hxy
    | _ => rfl
  induction t with
  | nil => simp [put, get?, hx]
  | cons e t ih =>
    obtain ⟨k', v'⟩ := e
    rw [put]
    split
    · rename_i hk'
      obtain rfl := Value.same_str.1 hk'
      simp [get?, hx]
    · rw [get?, List.find?_cons, get?, List.find?_cons]
      split
      · rfl
      · exact ih

namespace Frame.Kept

variable {A : String → Prop} {f g h : Frame}

theorem refl (A : String → Prop) (f : Frame) : f.Kept A f :=
  ⟨rfl, rfl, fun _ _ => rfl, fun _ hk => hk⟩

theorem trans (hfg : f.Kept A g) (hgh : g.Kept A h) : f.Kept A h where
  consts := hgh.consts.trans hfg.consts
  procs := hgh.procs.trans hfg.procs
  vars k hk := (hgh.vars k hk).trans (hfg.vars k hk)
  held k hk := hgh.held k (hfg.held k hk)

theorem update {x : String} (hx : A x) (f : Frame) (v : Value) :
    f.Kept A (f.update (.str x) v) where
  consts := rfl
  procs := rfl
  vars k hk := Table.get?_put_of_ne f.vars (hk x hx) v
  held k hk := by
    by_cases hkx : k = .str x
    · subst hkx
      show ((f.vars.put (.str x) v).get? (.str x)).isSome
      rw [Table.get?_put, if_pos rfl]
      rfl
    · show ((f.vars.put (.str x) v).get? k).isSome
      rwa [Table.get?_put_of_ne f.vars hkx v]

/-- what is found as a procedure was one before -/
theorem lookup_proc (hfg : f.Kept A g) {k v : Value} (hk : g.lookup k = some (.proc, v)) :
    f.lookup k = some (.proc, v) := by
  rw [Frame.lookup, hfg.consts, hfg.procs] at hk
  rw [Frame.lookup]
  cases hc : f.consts.get? k with
  | some c =>
    rw [hc] at hk
    cases hk
  | none =>
    rw [hc] at hk
    cases hv : f.vars.get? k with
    | none =>
      cases hg : g.vars.get? k with
      | none =>
        rw [hg] at hk
        exact hk
      | some w =>
        rw [hg] at hk
        cases hk
    | some w =>
      obtain ⟨w', hw'⟩ := Option.isSome_iff_exists.1 (hfg.held k (hv ▸ rfl))
      rw [hw'] at hk
      cases hk

theorem lookup_none (hfg : f.Kept A g) {k : Value} (hk : g.lookup k = none) :
    f.lookup k = none := by
  have hconsts : f.consts.get? k = none := hfg.consts ▸ Frame.get?_of_lookup_none hk .const
  have hprocs : f.procs.get? k = none := hfg.procs ▸ Frame.get?_of_lookup_none hk .proc
  have hvars : f.vars.get? k = none := by
    cases hv : f.vars.get? k with
    | none => rfl
    | some w =>
      obtain ⟨w', hw'⟩ := Option.isSome_iff_exists.1 (hfg.held k (hv ▸ rfl))
      have hg : g.vars.get? k = none := Frame.get?_of_lookup_none hk .var
      rw [hg] at hw'
      cases hw'
  rw [Frame.lookup, hconsts, hvars, hprocs]

end Frame.Kept

namespace Frames

variable {A : String → Prop} {U : Use → Prop} {fs gs hs : Frames}

/-- the same frames, each of them kept -/
def Kept (A : String → Prop) (fs gs : Frames) : Prop := List.Forall₂ (Frame.Kept A) fs gs

theorem Kept.refl (A : String → Prop) (fs : Frames) : fs.Kept A fs :=
  List.forall₂_same.2 fun f _ => Frame.Kept.refl A f

theorem Kept.trans (h : fs.Kept A gs) (h' : gs.Kept A hs) : fs.Kept A hs := by
  induction h generalizing hs with
  | nil => exact h'
  | cons hf _ ih =>
    cases h' with
    | cons hg hrest => exact .cons (hf.trans hg) (ih hrest)

theorem kept_update {x : String} (hx : A x) (fs : Frames) (n : Nat) (v : Value) :
    fs.Kept A (fs.modify n (·.update (.str x) v)) := by
  induction fs generalizing n with
  | nil => cases n <;> exact .nil
  | cons f fs ih =>
    cases n with
    | zero => exact .cons (Frame.Kept.update hx f v) (Kept.refl A fs)
    | succ n => exact .cons (Frame.Kept.refl A f) (ih n)

theorem Kept.find?_proc (h : fs.Kept A gs) {k v : Value} {n : Nat}
    (hk : gs.find? k = some (.proc, v, n)) : fs.find? k = some (.proc, v, n) := by
  induction h generalizing n with
  | nil => cases hk
  | @cons f g fs gs hfg _ ih =>
    rw [Frames.find?] at hk ⊢
    cases hg : g.lookup k with
    | some r =>
      obtain ⟨kind, w⟩ := r
      rw [hg] at hk
      cases hk
      rw [hfg.lookup_proc hg]
    | none =>
      rw [hg] at hk
      obtain ⟨⟨kind, w, m⟩, hm, he⟩ := Option.map_eq_some_iff.1 hk
      cases he
      rw [hfg.lookup_none hg, ih hm]
      rfl

/-- the procedures of all frames have blocks that parsing builds -/
def HoldBlocks (fs : Frames) : Prop :=
  ∀ f ∈ fs, ∀ e ∈ f.procs, ∃ name b, e.2 = .procedure name (Block.toValue b)

/-- the procedures that are called in `U` have blocks that use nothing but `U` -/
def Closed (U : Use → Prop) (fs : Frames) : Prop :=
  ∀ ⦃q : String⦄ ⦃v : Value⦄ ⦃n : Nat⦄, U (.call q) → fs.find? (.str q) = some (.proc, v, n) →
    ∃ name b, v = .procedure name (Block.toValue b) ∧ ∀ u ∈ b.uses, U u

theorem Closed.kept (h : fs.Closed U) (hk : fs.Kept A gs) : gs.Closed U :=
  fun _ _ _ hq hfind => h hq (hk.find?_proc hfind)

theorem Closed.push (h : fs.Closed U) : Frames.Closed U ({} :: fs) := by
  intro q v n hq hfind
  rw [Frames.find?_push] at hfind
  obtain ⟨⟨kind, w, m⟩, hm, he⟩ := Option.map_eq_some_iff.1 hfind
  cases he
  exact h hq hm

/-- the frame of a block has the procedures of the block only -/
theorem Closed.opened (h : fs.Closed U) {b : Block} (hb : ∀ u ∈ b.uses, U u) :
    Frames.Closed U (Evaluator.opened {} b :: fs) := by
  intro q v n hq hfind
  rw [Frames.find?] at hfind
  cases hl : (Evaluator.opened {} b).lookup (.str q) with
  | some r =>
    obtain ⟨kind, w⟩ := r
    rw [hl] at hfind
    cases hfind
    have hentry : (q, v) ∈ b.entries .proc := Evaluator.get?_opened (Frame.get?_of_lookup hl)
    obtain ⟨p, hp, he⟩ : ∃ p ∈ b.procs, (p.1, Value.procedure (.str p.1) p.2.toValue) = (q, v) := by
      obtain ⟨consts, vars, procs, body⟩ := b
      exact List.mem_map.1 hentry
    cases he
    exact ⟨.str p.1, p.2, rfl, fun u hu => hb u (Block.uses_proc hp hu)⟩
  | none =>
    rw [hl] at hfind
    obtain ⟨⟨kind, w, m⟩, hm, he⟩ := Option.map_eq_some_iff.1 hfind
    cases he
    exact h hq hm

/-- at the start, what a tree needs is closed -/
theorem HoldBlocks.closed (h : fs.HoldBlocks) (t : Subtree) : fs.Closed (t.Needs fs) := by
  rintro q v n ⟨w, hreach, hcall⟩ hfind
  obtain ⟨f, hf, hl⟩ := Frames.lookup_of_find? hfind
  obtain ⟨e, he, rfl⟩ := Table.mem_of_get? (Frame.get?_of_lookup hl)
  obtain ⟨name, b, hb⟩ := h f hf e he
  rw [hb] at hfind ⊢
  exact ⟨name, b, rfl, fun u hu => ⟨.block b, hreach.call hcall hfind, hu⟩⟩

end Frames

namespace Evaluator

open Act Contract Generator

variable {U : Use → Prop} {N : Nat} {v : Value} {s s' : Evaluator}

/-! ## trees that stand for values -/

theorem Gives.unchanged {r : Except Fault Value} {a : Frame × Value} (h : Gives s.frames v r)
    (hrun : exec (evaluate N v) s = (.ok a, s')) : s' = s := by
  rcases h.only N rfl with hstops | hfuel
  · generalize (r.map fun a => (({} : Frame), a)) = o at hstops
    cases hstops with
    | answer ha =>
      rw [ha] at hrun
      cases hrun
      rfl
    | fault he =>
      rw [he] at hrun
      cases hrun
  · rw [hrun] at hfuel
    cases hfuel

theorem lift_unchanged {α : Type} {r : Except Fault α} {a : α} (h : exec (lift r) s = (.ok a, s')) :
    s' = s := by
  cases r with
  | ok b =>
    cases h
    rfl
  | error e => cases h

theorem compareBy_unchanged {op : RelOp} {a b r : Value}
    (h : exec (compareBy (.str op.word) a b) s = (.ok r, s')) : s' = s := by
  cases op with
  | lt | lte | gt | gte =>
    obtain ⟨o, s₁, h₁, hpure⟩ := exec_bind_ok.1 h
    cases hpure
    exact lift_unchanged h₁
  | e | ne => cases h

theorem condition_unchanged {c : Condition} {a : Frame × Value}
    (h : exec (evaluate N c.toValue) s = (.ok a, s')) : s' = s := by
  obtain ⟨f, w⟩ := a
  obtain ⟨M, -, hvisit⟩ := evaluate_ok h
  -- the rule runs with one frame more
  have hrule : (⟨f :: s'.frames, s'.out⟩ : Evaluator) = ⟨{} :: s.frames, s.out⟩ := by
    cases c with
    | odd e =>
      obtain ⟨K, -, hodd⟩ := visit_tuple_ok "odd" ruleNames.odd hvisit
      rw [apply_odd] at hodd
      obtain ⟨r, s₁, h₁, hrest⟩ := exec_bind_ok.1 hodd
      obtain ⟨o, s₂, h₂, hpure⟩ := exec_bind_ok.1 hrest
      cases hpure
      exact (lift_unchanged h₂).trans ((gives_expr e _).unchanged h₁)
    | compare l op r =>
      obtain ⟨K, -, hcompare⟩ := visit_tuple_ok "condition" ruleNames.condition hvisit
      rw [apply_condition] at hcompare
      obtain ⟨a, s₁, h₁, hrest⟩ := exec_bind_ok.1 hcompare
      obtain ⟨b, s₂, h₂, h₃⟩ := exec_bind_ok.1 hrest
      have hfirst := (gives_expr l _).unchanged h₁
      subst hfirst
      have hsecond := (gives_expr r _).unchanged h₂
      subst hsecond
      exact compareBy_unchanged h₃
  obtain ⟨hframes, hout⟩ := Evaluator.mk.inj hrule
  obtain ⟨-, htail⟩ := List.cons.inj hframes
  obtain ⟨frames, out⟩ := s
  obtain ⟨frames', out'⟩ := s'
  cases htail
  cases hout
  rfl

/-! ## statements -/

/-- where the procedures that are called use nothing but `U`, a run that answers keeps the frames,
apart from variables that are assigned to in `U` -/
def keeping (U : Use → Prop) : Contract Evaluator where
  Keeps V p := ∀ ⦃s a s'⦄, s.frames.Closed U → exec p s = (.ok a, s') →
    V a ∧ s.frames.Kept (fun x => U (.assign x)) s'.frames
  answer ha s a s' _ h := by
    cases h
    exact ⟨ha, .refl _ _⟩
  fault e s a s' _ h := by cases h
  bind hp hf s b s'' hs h := by
    obtain ⟨a, s', h₁, h₂⟩ := exec_bind_ok.1 h
    obtain ⟨ha, hkept⟩ := hp hs h₁
    obtain ⟨hb, hkept'⟩ := hf a ha (hs.kept hkept) h₂
    exact ⟨hb, hkept.trans hkept'⟩

/-- a frame that is opened for a node is closed at its end -/
theorem keeping_evaluate (h : ∀ M < N, (keeping U).Keeps Any (visit M v)) :
    (keeping U).Keeps Any (evaluate N v) := by
  intro s a s' hs hrun
  obtain ⟨M, rfl, hvisit⟩ := evaluate_ok hrun
  have hkept := (h M (Nat.lt_succ_self M) hs.push hvisit).2
  cases hkept with
  | cons _ htail => exact ⟨trivial, htail⟩

theorem keeping_unchanged {α : Type} {p : Eval α}
    (h : ∀ ⦃s a s'⦄, exec p s = (.ok a, s') → s' = s) : (keeping U).Keeps Any p := by
  intro s a s' _ hrun
  rw [h hrun]
  exact ⟨trivial, .refl _ _⟩

theorem keeping_expr (e : Expr) : (keeping U).Keeps Any (evaluate N e.toValue) :=
  keeping_unchanged fun s _ _ hrun => (gives_expr e s.frames).unchanged hrun

theorem keeping_condition (c : Condition) : (keeping U).Keeps Any (evaluate N c.toValue) :=
  keeping_unchanged fun _ _ _ hrun => condition_unchanged hrun

theorem keeping_tuple {tag : String} {xs : List Value} (low : String) (hlow : tag.toLower = low)
    (h : ∀ M < N, (keeping U).Keeps Any (apply (M + 1) low (.str tag :: xs))) :
    (keeping U).Keeps Any (visit N (.tuple (.str tag :: xs))) := by
  intro s a s' hs hrun
  obtain ⟨M, rfl, hrule⟩ := visit_tuple_ok low hlow hrun
  exact h M (by omega) hs hrule

theorem keeping_list {tag : String} {xs : List Value} (low : String) (hlow : tag.toLower = low)
    (h : ∀ M < N, (keeping U).Keeps Any (apply (M + 1) low (.str tag :: xs))) :
    (keeping U).Keeps Any (visit N (.list (.str tag :: xs))) := by
  intro s a s' hs hrun
  obtain ⟨M, rfl, hrule⟩ := visit_list_ok low hlow hrun
  exact h M (by omega) hs hrule

/-- with the budget `N`, statements that use nothing but `U` keep the frames -/
def VisitsKeep (U : Use → Prop) (N : Nat) : Prop :=
  ∀ ⦃t : Statement⦄, (∀ u ∈ t.uses, U u) → (keeping U).Keeps Any (visit N t.toValue)

theorem keeping_statement (ih : ∀ M < N, VisitsKeep U M) {t : Statement} (ht : ∀ u ∈ t.uses, U u) :
    (keeping U).Keeps Any (evaluate N t.toValue) := keeping_evaluate fun M hM => ih M hM ht

/-- the declarations of a block go into the frame that was opened for it -/
theorem visit_block_keeps (ih : ∀ M < N, VisitsKeep U M) {b : Block} (hb : ∀ u ∈ b.uses, U u)
    (hs : s.frames.Closed U) {f : Frame}
    (h : exec (visit N b.toValue) ⟨{} :: s.frames, s.out⟩ = (.ok v, ⟨f :: s'.frames, s'.out⟩)) :
    s.frames.Kept (fun x => U (.assign x)) s'.frames := by
  obtain ⟨M, v', hM, hbody⟩ := visit_block h
  have huses : ∀ u ∈ b.body.uses, U u := fun u hu => hb u (b.uses_body hu)
  have hkept := (ih M hM huses (hs.opened hb) hbody).2
  cases hkept with
  | cons _ htail => exact htail

theorem keeping_block (ih : ∀ M < N, VisitsKeep U M) {b : Block} (hb : ∀ u ∈ b.uses, U u) :
    (keeping U).Keeps Any (evaluate N b.toValue) := by
  intro s a s' hs hrun
  obtain ⟨M, rfl, hvisit⟩ := evaluate_ok hrun
  exact ⟨trivial, visit_block_keeps (fun K hK => ih K (by omega)) hb hs hvisit⟩

theorem keeping_assign {x : String} {e : Expr} (hx : U (.assign x)) :
    (keeping U).Keeps Any (apply (N + 1) "set" [.str "SET", nameValue x, e.toValue]) := by
  rw [apply_set]
  refine (keeping_expr e).andThen fun r => ?_
  intro s a s' _ hrun
  obtain ⟨q, s₁, hfind, hwrite⟩ := exec_bind_ok.1 hrun
  obtain rfl : s₁ = s := lift_unchanged hfind
  cases hwrite
  exact ⟨trivial, Frames.kept_update hx s₁.frames _ r.2⟩

theorem keeping_print {e : Expr} :
    (keeping U).Keeps Any (apply (N + 1) "print" [.str "PRINT", e.toValue]) := by
  rw [apply_print]
  refine (keeping_expr e).andThen fun r => ?_
  intro s a s' _ hrun
  cases hrun
  exact ⟨trivial, .refl _ _⟩

/-- a call comes to a block that uses nothing else -/
theorem keeping_call (ih : ∀ M < N, VisitsKeep U M) {q : String} (hq : U (.call q)) :
    (keeping U).Keeps Any (apply (N + 1) "call" [.str "CALL", .str q]) := by
  show (keeping U).Keeps Any (find (.str q) >>= _)
  intro s a s' hs hrun
  obtain ⟨⟨kind, v, n⟩, s₁, hfind, hcall⟩ := exec_bind_ok.1 hrun
  obtain rfl : s₁ = s := lift_unchanged hfind
  have hfound : s₁.frames.find (.str q) = .ok (kind, v, n) := congrArg Prod.fst hfind
  rw [Frames.find_str] at hfound
  cases hr : s₁.frames.find? (.str q) with
  | none =>
    rw [hr] at hfound
    cases hfound
  | some r =>
    rw [hr] at hfound
    cases hfound
    cases kind with
    | const | var => cases hcall
    | proc =>
      obtain ⟨name, b, rfl, hb⟩ := hs hq hr
      have hevaluate : exec (do
          let r ← evaluate N b.toValue
          pure r.2) s₁ = (.ok a, s') := hcall
      exact (keeping_block ih hb).andThen (fun _ => (keeping U).answer trivial) hs hevaluate

theorem keeping_if (ih : ∀ M < N, VisitsKeep U M) {c : Condition} {t : Statement}
    (ht : ∀ u ∈ t.uses, U u) :
    (keeping U).Keeps Any (apply (N + 1) "if" [.str "IF", c.toValue, t.toValue]) := by
  rw [apply_if]
  refine (keeping_condition c).andThen fun r => ?_
  split
  · exact (keeping_statement ih ht).andThen fun _ => (keeping U).answer trivial
  · exact (keeping U).answer trivial

theorem keeping_loop (ih : ∀ M < N, VisitsKeep U M) {c : Condition} {t : Statement}
    (ht : ∀ u ∈ t.uses, U u) : (keeping U).Keeps Any (loop N c.toValue t.toValue) := by
  induction N with
  | zero => exact (keeping U).fault _
  | succ N ihN =>
    have ih' : ∀ M < N, VisitsKeep U M := fun M hM => ih M (by omega)
    rw [loop_succ]
    refine (keeping_condition c).andThen fun r => ?_
    split
    · exact (keeping_statement ih' ht).andThen fun _ => ihN ih'
    · exact (keeping U).answer trivial

theorem keeping_body (ih : ∀ M < N, VisitsKeep U M) {ts : List Statement}
    (hts : ∀ u ∈ Statement.uses.allUses ts, U u) :
    (keeping U).Keeps Any (visitEach N (Statement.toValue.bodyValues ts)) := by
  induction ts generalizing N with
  | nil =>
    cases N with
    | zero => exact (keeping U).fault _
    | succ N => exact (keeping U).answer trivial
  | cons t ts iht =>
    cases N with
    | zero => exact (keeping U).fault _
    | succ N =>
      have ht : ∀ u ∈ t.uses, U u := fun u hu => hts u (List.mem_append_left _ hu)
      have hrest : ∀ u ∈ Statement.uses.allUses ts, U u :=
        fun u hu => hts u (List.mem_append_right _ hu)
      rw [Statement.toValue.bodyValues, visitEach, if_pos (isNode_statement t)]
      refine (ih N (Nat.lt_succ_self N) ht).andThen fun _ => ?_
      exact (iht (fun M hM => ih M (by omega)) hrest).andThen fun _ => (keeping U).answer trivial

/-- **Statements keep the frames**, whatever the budget. -/
theorem visits_keep (U : Use → Prop) (N : Nat) : VisitsKeep U N := by
  induction N using Nat.strongRecOn with
  | ind N ih =>
    intro t ht
    have ih' : ∀ {K}, K < N → ∀ M < K, VisitsKeep U M := fun hK M hM => ih M (by omega)
    cases t with
    | assign x e =>
      exact keeping_tuple "set" ruleNames.assign fun K _ => keeping_assign (ht _ List.mem_cons_self)
    | call q =>
      exact keeping_tuple "call" ruleNames.call fun K hK =>
        keeping_call (ih' hK) (ht _ List.mem_cons_self)
    | block ts =>
      refine keeping_list "begin" ruleNames.sequence fun K hK => ?_
      rw [apply_begin]
      exact (keeping_body (ih' hK) ht).andThen fun _ => (keeping U).answer trivial
    | ifThen c t =>
      have hbody : ∀ u ∈ t.uses, U u := fun u hu => ht u (List.mem_append_right _ hu)
      exact keeping_tuple "if" ruleNames.ifThen fun K hK => keeping_if (ih' hK) hbody
    | whileDo c t =>
      have hbody : ∀ u ∈ t.uses, U u := fun u hu => ht u (List.mem_append_right _ hu)
      refine keeping_tuple "while" ruleNames.whileDo fun K hK => ?_
      rw [apply_while]
      exact (keeping_loop (ih' hK) hbody).andThen fun _ => (keeping U).answer trivial
    | print e => exact keeping_tuple "print" ruleNames.print fun K _ => keeping_print

theorem keeping_program {p : Program} (hp : ∀ u ∈ p.block.uses, U u) :
    (keeping U).Keeps Any (evaluate N p.toValue) := by
  rintro s ⟨f, w⟩ s' hs hrun
  obtain ⟨M, rfl, hvisit⟩ := evaluate_ok hrun
  obtain ⟨K, rfl, hrule⟩ := visit_tuple_ok "program" ruleNames.program hvisit
  rw [apply_program] at hrule
  obtain ⟨rs, s₁, heach, hgather⟩ := exec_bind_ok.1 hrule
  cases hgather
  have hnode : p.block.toValue.isNode = true := by
    cases p.block
    rfl
  obtain ⟨L, r, rs', s₂, -, hblock, hend⟩ := visitEach_node hnode heach
  cases L with
  | zero => cases hend
  | succ L =>
    cases hend
    exact ⟨trivial, visit_block_keeps (fun K _ => visits_keep U K) hp hs hblock⟩

/-- **What evaluation does to the frames.**  Where the procedures of all open frames have blocks
that parsing builds, let the evaluation of a tree answer.  Then as many frames are open as before,
and each of them has the same constants and procedures, and the same variables and values, apart
from names that are assigned to in the tree or in a procedure that it reaches.  If the tree stands
for a value, then all is as before, also what was printed. -/
theorem evaluation_keeps_frames {t : Subtree} {N : Nat} {s s' : Evaluator} {r : Frame × Value}
    (hblocks : s.frames.HoldBlocks) (hrun : run N t.toValue s = (.ok r, s')) :
    s'.frames.length = s.frames.length ∧ s.frames.Kept (t.Assigns s.frames) s'.frames ∧
      (t.IsValue → s' = s) := by
  have hclosed := hblocks.closed t
  have huses : ∀ u ∈ t.uses, t.Needs s.frames u := fun u hu => ⟨t, .self, hu⟩
  have hvalue : t.IsValue → s' = s := by
    intro ht
    cases t with
    | condition c => exact condition_unchanged hrun
    | expr e => exact (gives_expr e s.frames).unchanged hrun
    | term x => exact (gives_term x s.frames).unchanged hrun
    | factor f => exact (gives_factor f s.frames).unchanged hrun
    | program p | block b | statement u => exact ht.elim
  have hkept : s.frames.Kept (t.Assigns s.frames) s'.frames := by
    cases t with
    | program p => exact (keeping_program huses hclosed hrun).2
    | block b => exact (keeping_block (fun M _ => visits_keep _ M) huses hclosed hrun).2
    | statement u => exact (keeping_statement (fun M _ => visits_keep _ M) huses hclosed hrun).2
    | condition c | expr e | term x | factor f =>
      rw [hvalue trivial]
      exact .refl _ _
  exact ⟨hkept.length_eq.symm, hkept, hvalue⟩

/-- `x := x + c` -/
def addConstant : Block :=
  .mk none none [] (.assign "x" (.mk none (.mk (.name "x") []) [(.plus, .mk (.name "c") [])]))

/-- `BEGIN x := 2; CALL p END` -/
def setAndCall : Subtree :=
  .statement (.block [.assign "x" (.mk none (.mk (.number 2) []) []), .call "p"])

/-- two variables, and further out a constant and a procedure that changes one of them -/
def twoFrames (x : Int) : Evaluator where
  frames := [{ vars := [(.str "x", .int x), (.str "y", .int 7)] },
    { consts := [(.str "c", .int 3)],
      procs := [(.str "p", .procedure (.str "p") addConstant.toValue)] }]

/-- an assignment and a call are seen in one variable -/
theorem setAndCall_keeps_frames : (twoFrames 1).frames.HoldBlocks ∧
    ∃ r, run 40 setAndCall.toValue (twoFrames 1) = (.ok r, twoFrames 5) ∧
      (twoFrames 5).frames.length = (twoFrames 1).frames.length ∧
      (twoFrames 1).frames.Kept (setAndCall.Assigns (twoFrames 1).frames) (twoFrames 5).frames ∧
      (setAndCall.IsValue → twoFrames 5 = twoFrames 1) := by
  have hblocks : (twoFrames 1).frames.HoldBlocks := by
    refine List.forall_mem_cons.2 ⟨List.forall_mem_nil _, List.forall_mem_singleton.2 ?_⟩
    exact List.forall_mem_singleton.2 ⟨.str "p", addConstant, rfl⟩
  obtain ⟨r, hrun⟩ : ∃ r, run 40 setAndCall.toValue (twoFrames 1) = (.ok r, twoFrames 5) :=
    ⟨({}, .list [.none, .none]), by with_unfolding_all rfl⟩
  exact ⟨hblocks, r, hrun, evaluation_keeps_frames hblocks hrun⟩

end Evaluator

end Pl0Kit
