import Pl0Kit.Ast
import Pl0Kit.Generator.Targets
import Pl0Kit.Proofs.Outcome
import Pl0Kit.Proofs.Tables

/-!
# What the generators emit

The relations below say which events belong to each part of a program, with the names that are in
scope and the number of labels made before and after.  `Yields T p C` says of a part `p` of a walk
that it emits the one list of events with `C`, or stops because there is none.  This is closed under
sequences, so each rule is walked once, for all targets.  `program_emits` shows that a generator
that answers has emitted just the events of the program.

* `ExprCode fs e es`             the events of an expression where the frames `fs` are open;
* `StatementCode T fs n s m es`  those of a statement that takes the labels from `n + 1` to `m`;
* `ProcsCode`                    those of the procedures of a block, with the frame they are
  declared in;
* `ProgramCode`                  those of a program, with the frame of its block.
-/

namespace Pl0Kit

/-- a name that is unknown, or that stands for the wrong kind of thing -/
def Fault.IsName : Fault → Prop
  | .undefinedName _ => True
  | .wrongKind _ => True
  | _ => False

namespace Generator

open Act

/-! ## events of the parts of a program -/

def addEvent : AddOp → Event
  | .plus => .add
  | .minus => .sub

/-- only multiplication has an event: the word for a division is none that generators know -/
def mulEvents : MulOp → List Event
  | .times => [.mul]
  | .divide => []

def signEvents : Option AddOp → List Event
  | some .minus => [.negate]
  | _ => []

mutual

inductive ExprCode (fs : Frames) : Expr → List Event → Prop
  | mk {sign : Option AddOp} {first : Term} {rest : List (AddOp × Term)} {cs ds : List Event} :
      TermCode fs first cs → TermsCode fs rest ds →
        ExprCode fs (.mk sign first rest) (cs ++ (ds ++ signEvents sign))

inductive TermsCode (fs : Frames) : List (AddOp × Term) → List Event → Prop
  | nil : TermsCode fs [] []
  | cons {op : AddOp} {x : Term} {rest : List (AddOp × Term)} {cs ds : List Event} :
      TermCode fs x cs → TermsCode fs rest ds →
        TermsCode fs ((op, x) :: rest) (cs ++ addEvent op :: ds)

inductive TermCode (fs : Frames) : Term → List Event → Prop
  | mk {first : Factor} {rest : List (MulOp × Factor)} {cs ds : List Event} :
      FactorCode fs first cs → FactorsCode fs rest ds →
        TermCode fs (.mk first rest) (cs ++ ds)

inductive FactorsCode (fs : Frames) : List (MulOp × Factor) → List Event → Prop
  | nil : FactorsCode fs [] []
  | cons {op : MulOp} {x : Factor} {rest : List (MulOp × Factor)} {cs ds : List Event} :
      FactorCode fs x cs → FactorsCode fs rest ds →
        FactorsCode fs ((op, x) :: rest) (cs ++ (mulEvents op ++ ds))

inductive FactorCode (fs : Frames) : Factor → List Event → Prop
  | var {x : String} {v : Value} {n : Nat} :
      fs.find? (.str x) = some (.var, v, n) → FactorCode fs (.name x) [.load v.text]
  | const {x : String} {v : Value} {n : Nat} :
      fs.find? (.str x) = some (.const, v, n) → FactorCode fs (.name x) [.constant v.text]
  | number {n : Nat} : FactorCode fs (.number n) [.number (Value.int n).quoted]
  | paren {e : Expr} {cs : List Event} : ExprCode fs e cs → FactorCode fs (.paren e) cs

end

def oddEvents (T : Target) : List Event := if T.hasOdd then [.odd] else []

inductive ConditionCode (T : Target) (fs : Frames) : Condition → List Event → Prop
  | odd {e : Expr} {cs : List Event} :
      ExprCode fs e cs → ConditionCode T fs (.odd e) (cs ++ oddEvents T)
  | compare {l r : Expr} {op : RelOp} {w : String} {cs ds : List Event} :
      ExprCode fs l cs → ExprCode fs r ds → T.relation (.str op.word) = .ok w →
        ConditionCode T fs (.compare l op r) (cs ++ (ds ++ [.compare w]))

/-- the inner part of a loop: test and body in the order of the target -/
def loopEvents (T : Target) (top bottom : String) (test body : List Event) : List Event :=
  if T.testFirst then test ++ .loopExit top bottom :: body else body ++ test

mutual

inductive StatementCode (T : Target) (fs : Frames) : Nat → Statement → Nat → List Event → Prop
  | assign {n k : Nat} {x : String} {e : Expr} {v : Value} {cs : List Event} :
      ExprCode fs e cs → fs.find? (.str x) = some (.var, v, k) →
        StatementCode T fs n (.assign x e) n (cs ++ [.save v.text])
  | call {n k : Nat} {p : String} {v : Value} :
      fs.find? (.str p) = some (.proc, v, k) → StatementCode T fs n (.call p) n [.call v.text]
  | block {n m : Nat} {ss : List Statement} {cs : List Event} :
      StatementsCode T fs n ss m cs → StatementCode T fs n (.block ss) m cs
  | ifThen {n m : Nat} {c : Condition} {s : Statement} {cs ds : List Event} :
      ConditionCode T fs c cs → StatementCode T fs (n + 1) s m ds →
        StatementCode T fs n (.ifThen c s) m
          (cs ++ .branch (T.label "if_false" (n + 1)) ::
            (ds ++ [.join (T.label "if_false" (n + 1))]))
  | whileDo {n m : Nat} {c : Condition} {s : Statement} {cs ds : List Event} {top bottom : String} :
      top = T.label "while_start" (n + 1) → bottom = T.label "while_end" (n + 2) →
      ConditionCode T fs c cs → StatementCode T fs (n + 2) s m ds →
        StatementCode T fs n (.whileDo c s) m
          (.loopOpen top bottom :: (loopEvents T top bottom cs ds ++ [.loopClose top bottom]))
  | print {n : Nat} {e : Expr} {cs : List Event} :
      ExprCode fs e cs → StatementCode T fs n (.print e) n (cs ++ [.print])

inductive StatementsCode (T : Target) (fs : Frames) :
    Nat → List Statement → Nat → List Event → Prop
  | nil {n : Nat} : StatementsCode T fs n [] n []
  | cons {n k m : Nat} {s : Statement} {ss : List Statement} {cs ds : List Event} :
      StatementCode T fs n s k cs → StatementsCode T fs k ss m ds →
        StatementsCode T fs n (s :: ss) m (cs ++ ds)

end

/-! ## declarations -/

/-- a frame with constants defined in it, one after the other -/
def defineAll (f : Frame) (ds : List (String × Nat)) : Frame :=
  ds.foldl (fun f d => f.define (.str d.1) (.int d.2)) f

/-- the label of a variable that is declared after `n` labels were made -/
def varLabel (T : Target) (n : Nat) (x : String) : String := T.label (T.varHint ++ x) (n + 1)

def procLabel (T : Target) (n : Nat) (p : String) : String := T.label (T.procHint ++ p) (n + 1)

/-- a frame with variables declared in it; each takes one label -/
def declareAll (T : Target) (n : Nat) (f : Frame) : List String → Frame
  | [] => f
  | x :: xs => declareAll T (n + 1) (f.update (.str x) (.str (varLabel T n x))) xs

def cellEvents (T : Target) (n : Nat) : List String → List Event
  | [] => []
  | x :: xs => .cell (varLabel T n x) :: cellEvents T (n + 1) xs

/-- the frame of a block with its constants and variables -/
def declared (T : Target) (n : Nat) (f : Frame) (consts : Option (List (String × Nat)))
    (vars : Option (List String)) : Frame :=
  declareAll T n (defineAll f (consts.getD [])) (vars.getD [])

/-- procedures, declared in the innermost frame; procedures inside them are passed over -/
inductive ProcsCode (T : Target) (fs : Frames) :
    Nat → Frame → List (String × Block) → Nat → Frame → List Event → Prop
  | nil {n : Nat} {f : Frame} : ProcsCode T fs n f [] n f []
  | cons {n m k : Nat} {f f' : Frame} {p : String} {consts : Option (List (String × Nat))}
      {vars : Option (List String)} {inner rest : List (String × Block)} {body : Statement}
      {cs ds : List Event} {g : Frame} {label : String} :
      label = procLabel T n p → g = f.declare (.str p) (.str label) →
      StatementCode T (declared T (n + 1) {} consts vars :: g :: fs)
        (n + 1 + (vars.getD []).length) body m cs →
      ProcsCode T fs m g rest k f' ds →
        ProcsCode T fs n f ((p, .mk consts vars inner body) :: rest) k f'
          (.procHead p :: (cellEvents T (n + 1) (vars.getD []) ++ .procOpen label ::
            (cs ++ .procClose label :: ds)))

/-- a program, with the frame of its block at the end -/
inductive ProgramCode (T : Target) : Program → Nat → Frame → List Event → Prop
  | mk {k m : Nat} {f : Frame} {consts : Option (List (String × Nat))}
      {vars : Option (List String)} {procs : List (String × Block)} {body : Statement}
      {cs ds : List Event} :
      ProcsCode T [] (vars.getD []).length (declared T 0 {} consts vars) procs k f cs →
      StatementCode T [f] k body m ds →
        ProgramCode T ⟨.mk consts vars procs body⟩ m f
          (.start :: (cellEvents T 0 (vars.getD []) ++ (cs ++ .mainOpen :: (ds ++ [.mainClose]))))

/-! ## frames while code is generated -/

/-- constants are numbers, and labels of variables and procedures satisfy `D` and `P` -/
structure Scoped (D P : String → Prop) (f : Frame) : Prop where
  const : ∀ e ∈ f.consts, ∃ n : Nat, e.2 = .int n
  var : ∀ e ∈ f.vars, ∃ l, e.2 = .str l ∧ D l
  proc : ∀ e ∈ f.procs, ∃ l, e.2 = .str l ∧ P l

namespace Scoped

variable {D P : String → Prop} {f : Frame} {fs : Frames} {k v : Value} {n : Nat}

theorem empty : Scoped D P {} := ⟨nofun, nofun, nofun⟩

theorem find_const (h : ∀ f ∈ fs, Scoped D P f) (hf : fs.find? k = some (.const, v, n)) :
    ∃ m : Nat, v = .int m := by
  obtain ⟨f, hmem, hl⟩ := Frames.lookup_of_find? hf
  obtain ⟨e, he, rfl⟩ := Table.mem_of_get? (Frame.get?_of_lookup hl)
  exact (h f hmem).const e he

theorem find_var (h : ∀ f ∈ fs, Scoped D P f) (hf : fs.find? k = some (.var, v, n)) :
    ∃ l, v = .str l ∧ D l := by
  obtain ⟨f, hmem, hl⟩ := Frames.lookup_of_find? hf
  obtain ⟨e, he, rfl⟩ := Table.mem_of_get? (Frame.get?_of_lookup hl)
  exact (h f hmem).var e he

theorem find_proc (h : ∀ f ∈ fs, Scoped D P f) (hf : fs.find? k = some (.proc, v, n)) :
    ∃ l, v = .str l ∧ P l := by
  obtain ⟨f, hmem, hl⟩ := Frames.lookup_of_find? hf
  obtain ⟨e, he, rfl⟩ := Table.mem_of_get? (Frame.get?_of_lookup hl)
  exact (h f hmem).proc e he

theorem find_label (h : ∀ f ∈ fs, Scoped D P f) {kind : EntryKind} (hk : kind ≠ .const)
    (hf : fs.find? k = some (kind, v, n)) : ∃ l, v = .str l := by
  cases kind with
  | const => exact absurd rfl hk
  | var => exact (find_var h hf).imp fun _ hl => hl.1
  | proc => exact (find_proc h hf).imp fun _ hl => hl.1

theorem define (h : Scoped D P f) (k : Value) (m : Nat) : Scoped D P (f.define k (.int m)) := by
  refine ⟨fun e he => ?_, h.var, h.proc⟩
  rcases Table.mem_put he with he | he
  · exact h.const e he
  · exact ⟨m, he⟩

theorem update (h : Scoped D P f) (k : Value) {l : String} (hl : D l) :
    Scoped D P (f.update k (.str l)) := by
  refine ⟨h.const, fun e he => ?_, h.proc⟩
  rcases Table.mem_put he with he | he
  · exact h.var e he
  · exact ⟨l, he, hl⟩

theorem declare (h : Scoped D P f) (k : Value) {l : String} (hl : P l) :
    Scoped D P (f.declare k (.str l)) := by
  refine ⟨h.const, h.var, fun e he => ?_⟩
  rcases Table.mem_put he with he | he
  · exact h.proc e he
  · exact ⟨l, he, hl⟩

theorem defineAll (h : Scoped D P f) (ds : List (String × Nat)) :
    Scoped D P (Generator.defineAll f ds) := by
  induction ds generalizing f with
  | nil => exact h
  | cons d ds ih => exact ih (h.define (.str d.1) d.2)

theorem declareAll {T : Target} {n : Nat} (h : Scoped D P f) (xs : List String)
    (hxs : ∀ l, .cell l ∈ cellEvents T n xs → D l) :
    Scoped D P (Generator.declareAll T n f xs) := by
  induction xs generalizing f n with
  | nil => exact h
  | cons x xs ih =>
    have hl : D (varLabel T n x) := hxs _ List.mem_cons_self
    exact ih (h.update (.str x) hl) fun l hl => hxs l (List.mem_cons_of_mem _ hl)

theorem declared {T : Target} {n : Nat} (h : Scoped D P f) (consts : Option (List (String × Nat)))
    {vars : Option (List String)} (hvars : ∀ l, .cell l ∈ cellEvents T n (vars.getD []) → D l) :
    Scoped D P (Generator.declared T n f consts vars) :=
  (h.defineAll _).declareAll _ hvars

/-- the frames in which the body of a procedure is generated -/
theorem procedure {T : Target} {g : Frame} {p label : String}
    (hg : g = f.declare (.str p) (.str label)) (hlabel : P label)
    (consts : Option (List (String × Nat))) {vars : Option (List String)}
    (hvars : ∀ l, .cell l ∈ cellEvents T n (vars.getD []) → D l) (h : ∀ e ∈ f :: fs, Scoped D P e) :
    ∀ e ∈ Generator.declared T n {} consts vars :: g :: fs, Scoped D P e := by
  obtain ⟨hf, hfs⟩ := List.forall_mem_cons.1 h
  exact List.forall_mem_cons.2 ⟨empty.declared consts hvars,
    List.forall_mem_cons.2 ⟨hg ▸ hf.declare (.str p) hlabel, hfs⟩⟩

/-- declaring procedures only adds their labels -/
theorem procs {T : Target} {m : Nat} {f' : Frame} {procs : List (String × Block)}
    {es : List Event} (hcode : ProcsCode T fs n f procs m f' es) (h : Scoped D P f)
    (hP : ∀ l, .procOpen l ∈ es → P l) : Scoped D P f' := by
  induction hcode with
  | nil => exact h
  | cons _ hg _ _ ih =>
    exact ih (hg ▸ h.declare _ (hP _ (by simp))) fun l hl => hP l (by simp [hl])

end Scoped

/-- a frame whose labels are texts -/
abbrev Worded : Frame → Prop := Scoped (fun _ => True) (fun _ => True)

theorem Scoped.worded {D P : String → Prop} {f : Frame} (h : Scoped D P f) : Worded f where
  const := h.const
  var e he := (h.var e he).imp fun _ hl => ⟨hl.1, trivial⟩
  proc e he := (h.proc e he).imp fun _ hl => ⟨hl.1, trivial⟩

/-! ## visiting a node -/

section Visit

variable {σ : Type} (R : Rules σ)

@[simp] theorem value_spot (v : Value) : (R.spot v).value = v := by
  cases v <;> rfl

theorem surveyAll_eq (xs : List Value) : Site.surveyAll R.visit xs = xs.map R.spot := by
  induction xs with
  | nil => rfl
  | cons x xs ih => rw [Site.surveyAll, ih]; rfl

theorem run_tuple (tag : String) (xs : List Value) :
    R.run (.tuple (.str tag :: xs)) = R.apply (.str tag) ((.str tag :: xs).map R.spot) := by
  rw [← surveyAll_eq]
  rfl

theorem run_list (tag : String) (xs : List Value) :
    R.run (.list (.str tag :: xs)) = R.apply (.str tag) ((.str tag :: xs).map R.spot) := by
  rw [← surveyAll_eq]
  rfl

theorem exec_argument {α : Type} {args : List (Spot σ)} {i : Nat} {a : Spot σ}
    (f : Spot σ → Act σ α) (s : σ) (h : args[i]? = some a) :
    exec (argument args i >>= f) s = exec (f a) s := by
  rw [argument, h]
  rfl

theorem exec_item {α : Type} {xs : List Value} {i : Nat} {x : Value} (f : Spot σ → Act σ α) (s : σ)
    (h : xs[i]? = some x) :
    exec ((R.spot (.tuple xs)).item i >>= f) s = exec (f (R.spot x)) s := by
  have hitem : (R.spot (.tuple xs)).item i = pure (R.spot x) := by
    have hpart : (R.spot (.tuple xs)).parts[i]? = some (R.spot x) := by
      show (Site.surveyAll R.visit xs)[i]? = _
      rw [surveyAll_eq, List.getElem?_map, h]
      rfl
    rw [Spot.item, value_spot, hpart]
  rw [hitem]
  rfl

theorem exec_slice {α : Type} (xs : List Value) (i j : Nat) (f : List (Spot σ) → Act σ α) (s : σ) :
    exec ((R.spot (.tuple xs)).slice i j >>= f) s =
      exec (f (((xs.take j).drop i).map R.spot)) s := by
  have hslice : (R.spot (.tuple xs)).slice i j = pure (((xs.take j).drop i).map R.spot) := by
    show (pure (((Site.surveyAll R.visit xs).take j).drop i) : Act σ (List (Spot σ))) = _
    rw [surveyAll_eq, List.map_drop, List.map_take]
  rw [hslice]
  rfl

end Visit

/-! ## what the rules emit -/

/-- a generator after more events, with `m` labels made -/
def Gen.after (g : Gen) (m : Nat) (es : List Event) : Gen :=
  { g with labels := m, events := g.events ++ es }

namespace Gen

@[simp] theorem after_frames (g : Gen) (m : Nat) (es : List Event) :
    (g.after m es).frames = g.frames := rfl

@[simp] theorem after_labels (g : Gen) (m : Nat) (es : List Event) :
    (g.after m es).labels = m := rfl

@[simp] theorem after_events (g : Gen) (m : Nat) (es : List Event) :
    (g.after m es).events = g.events ++ es := rfl

@[simp] theorem after_nil (g : Gen) : g.after g.labels [] = g := by
  simp [after]

@[simp] theorem after_after (g : Gen) (m k : Nat) (es ds : List Event) :
    (g.after m es).after k ds = g.after k (es ++ ds) := by
  simp [after]

theorem after_inj {g : Gen} {m k : Nat} {es ds : List Event} (h : g.after m es = g.after k ds) :
    m = k ∧ es = ds := by
  simpa [after] using h

end Gen

@[simp] theorem exec_emit (e : Event) (g : Gen) :
    exec (emit e) g = (.ok (), g.after g.labels [e]) := rfl

theorem exec_newLabel (T : Target) (hint : String) (g : Gen) :
    exec (newLabel T hint) g = (.ok (T.label hint (g.labels + 1)), g.after (g.labels + 1) []) := by
  rw [Gen.after, List.append_nil]
  rfl

theorem exec_lift {α : Type} (a : α) (g : Gen) : exec (lift (.ok a)) g = (.ok a, g) := rfl

theorem exec_find_entry {x : String} {g : Gen} {kind : EntryKind} {v : Value} {k : Nat}
    (h : g.frames.find? (.str x) = some (kind, v, k)) :
    exec (find (.str x)) g = (.ok (kind, v), g) := by
  have hfind : g.frames.find (.str x) = .ok (kind, v, k) := by
    rw [Frames.find, if_neg (by simp [Value.isKey]), h]
  rw [find, exec_then (exec_get g), hfind, exec_then (exec_lift _ g)]
  rfl

theorem apply_rule {σ : Type} {R : Rules σ} {tag : String} {rule : List (Spot σ) → Act σ Value}
    (low : String) (args : List (Spot σ)) (hl : tag.toLower = low) (hr : R low = some rule) :
    R.apply (.str tag) args = rule args := by
  rw [Rules.apply, hl, hr]

theorem apply_none {σ : Type} {R : Rules σ} {tag : String} (low : String)
    (args : List (Spot σ)) (hl : tag.toLower = low) (hr : R low = none) :
    R.apply (.str tag) args = visitAll (args.drop 1) := by
  rw [Rules.apply, hl, hr]

theorem run_name (x : String) :
    (rules T).run (nameValue x) =
      nameRule T [(rules T).spot (.str "NAME"), (rules T).spot (.str x)] := by
  rw [nameValue, run_tuple]
  exact apply_rule "name" _ ruleNames.name rfl

/-! ## what a part of a walk comes to -/

/-- events of a part, with the frames that are open and the numbers of labels made before and after
it -/
abbrev Codes := Frames → Nat → Nat → List Event → Prop

/-- the events of one part after those of another -/
def Codes.andThen (A B : Codes) : Codes :=
  fun fs n m es => ∃ k cs ds, A fs n k cs ∧ B fs k m ds ∧ es = cs ++ ds

/-- events of a part that takes no labels -/
def Codes.still (C : Frames → List Event → Prop) : Codes := fun fs n m es => m = n ∧ C fs es

def Codes.events (es : List Event) : Codes := .still fun _ => (· = es)

/-- a target that has a word for every comparison -/
def Target.Relates (T : Target) : Prop := ∀ op : RelOp, ∃ w, T.relation (.str op.word) = .ok w

/-- the outcome of a part of a walk: it leaves the only generator with `P`; or there is none, and it
stops at a fault, which is one of names if the target has a word for every comparison -/
inductive Ends {α : Type} (T : Target) (P : Gen → Prop) : Except Fault α × Gen → Prop
  | answer {a : α} {g : Gen} : P g → (∀ g', P g' → g' = g) → Ends T P (.ok a, g)
  | fault {e : Fault} {g : Gen} : (T.Relates → e.IsName) → (∀ g', ¬P g') → Ends T P (.error e, g)

namespace Ends

variable {α β : Type} {T : Target} {P Q : Gen → Prop} {g : Gen} {r : Except Fault α × Gen}

theorem ok {a : α} : Ends T P (.ok a, g) → P g
  | .answer h _ => h

theorem error {e : Fault} : Ends T P ((.error e : Except Fault α), g) → T.Relates → e.IsName
  | .fault h _ => h

theorem eq_ok (h : Ends T P r) (hg : P g) : ∃ a, r = (.ok a, g) := by
  cases h with
  | @answer a _ _ hone => exact ⟨a, by rw [hone g hg]⟩
  | fault _ hnone => exact absurd hg (hnone g)

theorem congr (h : Ends T P r) (hPQ : ∀ g, P g ↔ Q g) : Ends T Q r := by
  cases h with
  | answer h hone => exact .answer ((hPQ _).1 h) fun g' hg => hone g' ((hPQ g').2 hg)
  | fault he hnone => exact .fault he fun g' hg => hnone g' ((hPQ g').2 hg)

theorem bind {p : GenM α} {f : α → GenM β} (h : Ends T P (exec p g))
    (hf : ∀ a g', P g' → (∀ g'', P g'' → g'' = g') → Ends T Q (exec (f a) g'))
    (hQ : ∀ g', Q g' → ∃ g, P g) : Ends T Q (exec (p >>= f) g) := by
  rw [exec_bind]
  generalize exec p g = r at h ⊢
  cases h with
  | answer h hone => exact hf _ _ h hone
  | fault he hnone =>
    refine .fault he fun g' hg => ?_
    obtain ⟨g₁, h₁⟩ := hQ g' hg
    exact hnone g₁ h₁

theorem map {p : GenM α} (h : Ends T P (exec p g)) (f : α → β) : Ends T P (exec (f <$> p) g) := by
  rw [map_eq_pure_bind]
  exact h.bind (fun _ _ h hone => .answer h hone) fun g' hg => ⟨g', hg⟩

end Ends

/-- where labels are texts, a part emits what `C` says and changes nothing else -/
def Yields {α : Type} (T : Target) (p : GenM α) (C : Codes) : Prop :=
  ∀ g : Gen, (∀ f ∈ g.frames, Worded f) →
    Ends T (fun g' => ∃ m es, C g.frames g.labels m es ∧ g' = g.after m es) (exec p g)

namespace Yields

variable {α β : Type} {T : Target} {p q : GenM α} {f : α → GenM β} {A B : Codes}

theorem congr (h : Yields T p A) (hAB : ∀ fs n m es, A fs n m es ↔ B fs n m es) : Yields T p B := by
  intro g hg
  have hp := h g hg
  simp only [hAB] at hp
  exact hp

theorem of_exec_eq (h : Yields T q A) (heq : ∀ g, exec p g = exec q g) : Yields T p A := by
  intro g hg
  rw [heq]
  exact h g hg

theorem bind (h : Yields T p A) (hf : ∀ a, Yields T (f a) B) :
    Yields T (p >>= f) (A.andThen B) := by
  refine fun g hg => (h g hg).bind ?_ ?_
  · rintro a _ ⟨k, cs, hcs, rfl⟩ hone
    refine (hf a (g.after k cs) hg).congr fun g' => ⟨?_, ?_⟩
    · rintro ⟨m, ds, hds, rfl⟩
      exact ⟨m, cs ++ ds, ⟨k, cs, ds, hcs, hds, rfl⟩, Gen.after_after ..⟩
    · rintro ⟨m, _, ⟨k', cs', ds, hcs', hds, rfl⟩, rfl⟩
      obtain ⟨rfl, rfl⟩ := Gen.after_inj (hone _ ⟨k', cs', hcs', rfl⟩)
      exact ⟨m, ds, hds, (Gen.after_after ..).symm⟩
  · rintro _ ⟨m, _, ⟨k, cs, ds, hcs, -, rfl⟩, rfl⟩
    exact ⟨_, k, cs, hcs, rfl⟩

/-- a part that is done has emitted these events -/
theorem done (es : List Event) {p : GenM α}
    (h : ∀ g, ∃ a, exec p g = (.ok a, g.after g.labels es)) : Yields T p (.events es) := by
  intro g _
  obtain ⟨a, ha⟩ := h g
  rw [ha]
  refine .answer ⟨_, _, ⟨rfl, rfl⟩, rfl⟩ ?_
  rintro _ ⟨_, _, ⟨rfl, rfl⟩, rfl⟩
  rfl

/-- a part that stops at a name has no code -/
theorem stops {p : GenM α} {e : Fault} (h : ∀ g, exec p g = (.error e, g))
    (he : T.Relates → e.IsName) (hA : ∀ fs n m es, ¬A fs n m es) : Yields T p A := by
  intro g _
  rw [h]
  refine .fault he ?_
  rintro _ ⟨m, es, hes, -⟩
  exact hA _ _ _ _ hes

theorem emit (e : Event) : Yields T (emit e) (.events [e]) := done [e] fun _ => ⟨(), rfl⟩

theorem nothing (a : α) : Yields T (pure a) (.events []) :=
  done [] fun g => ⟨a, by rw [Gen.after_nil, exec_pure]⟩

/-- a part whose answer is made into another one -/
theorem last (h : Yields T p A) (b : α → β) : Yields T (p >>= fun a => pure (b a)) A := by
  intro g hg
  rw [← map_eq_pure_bind]
  exact (h g hg).map b

theorem emits (e : Event) (a : α) : Yields T (Generator.emit e >>= fun _ => pure a) (.events [e]) :=
  (emit e).last fun _ => a

theorem visitAll {ss : List (Spot Gen)} (h : Yields T (visitNodes ss) A) :
    Yields T (visitAll ss) A := by
  rw [Pl0Kit.visitAll, map_eq_pure_bind]
  exact h.last gather

theorem argument {args : List (Spot Gen)} {i : Nat} {a : Spot Gen} {f : Spot Gen → GenM β}
    (ha : args[i]? = some a) (h : Yields T (f a) A) : Yields T (argument args i >>= f) A :=
  h.of_exec_eq fun g => exec_argument f g ha

theorem item {R : Rules Gen} {xs : List Value} {i : Nat} {x : Value} {f : Spot Gen → GenM β}
    (hx : xs[i]? = some x) (h : Yields T (f (R.spot x)) A) :
    Yields T ((R.spot (.tuple xs)).item i >>= f) A :=
  h.of_exec_eq fun g => exec_item R f g hx

/-- a part that goes on with a new label -/
theorem newLabel {hint : String} {f : String → GenM β} {C : String → Codes}
    (h : ∀ l, Yields T (f l) (C l)) :
    Yields T (newLabel T hint >>= f) fun fs n m es => C (T.label hint (n + 1)) fs (n + 1) m es := by
  intro g hg
  have hf := h (T.label hint (g.labels + 1)) (g.after (g.labels + 1) []) hg
  simp only [Gen.after_after, List.nil_append] at hf
  rw [exec_then (exec_newLabel T hint g)]
  exact hf

/-- a part that goes on with what a name stands for -/
theorem find {x : String} {f : EntryKind × Value → GenM β} {C : EntryKind → Value → Codes}
    (h : ∀ kind v, (kind ≠ .const → ∃ l, v = .str l) → Yields T (f (kind, v)) (C kind v)) :
    Yields T (find (.str x) >>= f) fun fs n m es =>
      ∃ kind v k, fs.find? (.str x) = some (kind, v, k) ∧ C kind v fs n m es := by
  intro g hg
  cases hx : g.frames.find? (.str x) with
  | none =>
    have hfind : g.frames.find (.str x) = .error (.undefinedName (.str x)) := by
      rw [Frames.find, if_neg (by simp [Value.isKey]), hx]
    have hrun : exec (Generator.find (.str x)) g = (.error (.undefinedName (.str x)), g) := by
      rw [Generator.find, exec_then (exec_get g), hfind]
      rfl
    rw [exec_bind, hrun]
    exact .fault (fun _ => trivial) (by simp [hx])
  | some r =>
    obtain ⟨kind, v, k⟩ := r
    rw [exec_then (exec_find_entry hx)]
    have hlabel : kind ≠ .const → ∃ l, v = .str l := fun hk => Scoped.find_label hg hk hx
    refine (h kind v hlabel g hg).congr fun g' => ⟨?_, ?_⟩
    · rintro ⟨m, es, hes, rfl⟩
      exact ⟨m, es, ⟨kind, v, k, hx, hes⟩, rfl⟩
    · rintro ⟨m, es, ⟨_, _, _, hx', hes⟩, rfl⟩
      cases hx.symm.trans hx'
      exact ⟨m, es, hes, rfl⟩

/-- a label that is a text is written as it is, by every target -/
theorem label {strict : Bool} {l : String} {e : String → Event} {b : β} :
    Yields T (do Generator.emit (e (← labelText strict (.str l))); pure b) (.events [e l]) := by
  cases strict <;> exact emits (e l) b

end Yields

variable {T : Target}

/-! ## expressions -/

theorem yields_name (x : String) :
    Yields T ((rules T).run (nameValue x)) (.still (FactorCode · (.name x))) := by
  rw [run_name, nameRule]
  refine .argument rfl ?_
  rw [value_spot]
  refine (Yields.find (C := fun kind v => .still fun _ es =>
    kind = .var ∧ es = [.load v.text] ∨ kind = .const ∧ es = [.constant v.text]) fun kind v hv =>
      ?_).congr ?_
  · cases kind with
    | var =>
      obtain ⟨l, rfl⟩ := hv (by decide)
      exact Yields.label.congr (by simp [Codes.events, Codes.still, Value.text])
    | const => exact (Yields.emits _ Value.none).congr (by simp [Codes.events, Codes.still])
    | proc => exact .stops (fun g => rfl) (fun _ => trivial) (by simp [Codes.still])
  · refine fun fs n m es => ⟨?_, ?_⟩
    · rintro ⟨kind, v, k, hk, rfl, (⟨rfl, rfl⟩ | ⟨rfl, rfl⟩)⟩
      · exact ⟨rfl, .var hk⟩
      · exact ⟨rfl, .const hk⟩
    · rintro ⟨rfl, hk | hk⟩
      · exact ⟨_, _, _, hk, rfl, .inl ⟨rfl, rfl⟩⟩
      · exact ⟨_, _, _, hk, rfl, .inr ⟨rfl, rfl⟩⟩

mutual

theorem yields_expr : ∀ e : Expr, Yields T ((rules T).run e.toValue) (.still (ExprCode · e))
  | .mk sign first rest => by
    rw [Expr.toValue, run_list, apply_rule "expression" _ ruleNames.expression rfl, expressionRule]
    refine (Yields.argument rfl ((yields_term first).bind fun _ => (yields_terms rest).bind fun _ =>
      .argument rfl (show Yields T _ (.events (signEvents sign)) from ?_))).congr ?_
    · rw [value_spot]
      rcases sign with _ | _ | _
      · exact .nothing _
      · exact .nothing _
      · exact Yields.emits _ Value.none
    · refine fun fs n m es => ⟨?_, ?_⟩
      · rintro ⟨_, cs, _, ⟨rfl, hcs⟩, ⟨_, ds, _, ⟨rfl, hds⟩, ⟨rfl, rfl⟩, rfl⟩, rfl⟩
        exact ⟨rfl, .mk hcs hds⟩
      · rintro ⟨rfl, hcs, hds⟩
        exact ⟨_, _, _, ⟨rfl, hcs⟩, ⟨_, _, _, ⟨rfl, hds⟩, ⟨rfl, rfl⟩, rfl⟩, rfl⟩

theorem yields_terms : ∀ xs : List (AddOp × Term),
    Yields T (terms ((Expr.tailValues xs).map (rules T).spot)) (.still (TermsCode · xs))
  | [] => by
    refine (Yields.nothing ()).congr fun fs n m es => ⟨?_, ?_⟩
    · rintro ⟨rfl, rfl⟩
      exact ⟨rfl, .nil⟩
    · rintro ⟨rfl, ⟨⟩⟩
      exact ⟨rfl, rfl⟩
  | (op, x) :: rest => by
    rw [Expr.tailValues, List.map_cons, terms]
    refine (Yields.item rfl ((yields_term x).bind fun _ => .item rfl
      (show Yields T _ (.andThen (.events [addEvent op])
        (.still (TermsCode · rest))) from ?_))).congr ?_
    · rw [value_spot]
      cases op <;> exact (Yields.emit _).bind fun _ => yields_terms rest
    · refine fun fs n m es => ⟨?_, ?_⟩
      · rintro ⟨_, cs, _, ⟨rfl, hcs⟩, ⟨_, _, ds, ⟨rfl, rfl⟩, ⟨rfl, hds⟩, rfl⟩, rfl⟩
        exact ⟨rfl, .cons hcs hds⟩
      · rintro ⟨rfl, h⟩
        cases h with
        | cons hcs hds => exact ⟨_, _, _, ⟨rfl, hcs⟩, ⟨_, _, _, ⟨rfl, rfl⟩, ⟨rfl, hds⟩, rfl⟩, rfl⟩

theorem yields_term : ∀ x : Term, Yields T ((rules T).run x.toValue) (.still (TermCode · x))
  | .mk first rest => by
    rw [Term.toValue, run_list, apply_rule "term" _ ruleNames.term rfl, termRule]
    refine (Yields.argument rfl ((yields_factor first).bind fun _ =>
      (yields_factors rest).last fun _ => Value.none)).congr fun fs n m es => ⟨?_, ?_⟩
    · rintro ⟨_, cs, ds, ⟨rfl, hcs⟩, ⟨rfl, hds⟩, rfl⟩
      exact ⟨rfl, .mk hcs hds⟩
    · rintro ⟨rfl, hcs, hds⟩
      exact ⟨_, _, _, ⟨rfl, hcs⟩, ⟨rfl, hds⟩, rfl⟩

theorem yields_factors : ∀ xs : List (MulOp × Factor),
    Yields T (factors ((Term.tailValues xs).map (rules T).spot)) (.still (FactorsCode · xs))
  | [] => by
    refine (Yields.nothing ()).congr fun fs n m es => ⟨?_, ?_⟩
    · rintro ⟨rfl, rfl⟩
      exact ⟨rfl, .nil⟩
    · rintro ⟨rfl, ⟨⟩⟩
      exact ⟨rfl, rfl⟩
  | (op, x) :: rest => by
    rw [Term.tailValues, List.map_cons, factors]
    refine (Yields.item rfl ((yields_factor x).bind fun _ => .item rfl
      (show Yields T _ (.andThen (.events (mulEvents op))
        (.still (FactorsCode · rest))) from ?_))).congr ?_
    · rw [value_spot]
      cases op with
      | times => exact (Yields.emit _).bind fun _ => yields_factors rest
      | divide => exact (Yields.nothing ()).bind fun _ => yields_factors rest
    · refine fun fs n m es => ⟨?_, ?_⟩
      · rintro ⟨_, cs, _, ⟨rfl, hcs⟩, ⟨_, _, ds, ⟨rfl, rfl⟩, ⟨rfl, hds⟩, rfl⟩, rfl⟩
        exact ⟨rfl, .cons hcs hds⟩
      · rintro ⟨rfl, h⟩
        cases h with
        | cons hcs hds => exact ⟨_, _, _, ⟨rfl, hcs⟩, ⟨_, _, _, ⟨rfl, rfl⟩, ⟨rfl, hds⟩, rfl⟩, rfl⟩

theorem yields_factor : ∀ x : Factor, Yields T ((rules T).run x.toValue) (.still (FactorCode · x))
  | .name x => yields_name x
  | .number n => by
    rw [Factor.toValue, run_tuple, apply_rule "number" _ ruleNames.number rfl, numberRule]
    refine (Yields.argument rfl (Yields.emits _ Value.none)).congr fun fs n m es => ⟨?_, ?_⟩
    · rintro ⟨rfl, rfl⟩
      exact ⟨rfl, .number⟩
    · rintro ⟨rfl, ⟨⟩⟩
      exact ⟨rfl, rfl⟩
  | .paren e => by
    refine (yields_expr e).congr fun fs n m es => ⟨?_, ?_⟩
    · rintro ⟨rfl, hes⟩
      exact ⟨rfl, .paren hes⟩
    · rintro ⟨rfl, h⟩
      cases h with
      | paren hes => exact ⟨rfl, hes⟩

end

/-! ## statements -/

theorem isNode_expr (e : Expr) : e.toValue.isNode = true := by
  cases e
  rfl

theorem isNode_statement (s : Statement) : s.toValue.isNode = true := by
  cases s <;> rfl

theorem visitNodes_cons {σ : Type} {R : Rules σ} {x : Value} (hx : x.isNode = true)
    (xs : List Value) : visitNodes ((x :: xs).map R.spot) = (do
      let v ← R.run x
      let vs ← visitNodes (xs.map R.spot)
      pure (v :: vs)) := by
  rw [List.map_cons, visitNodes, value_spot, if_pos hx]
  rfl

theorem visitNodes_skip {σ : Type} {R : Rules σ} {x : Value} (hx : x.isNode = false)
    (xs : List Value) : visitNodes ((x :: xs).map R.spot) = visitNodes (xs.map R.spot) := by
  rw [List.map_cons, visitNodes, value_spot, hx]
  rfl

theorem visitAll_ok {σ : Type} {ss : List (Spot σ)} {s s' : σ} {v : Value}
    (h : exec (visitAll ss) s = (.ok v, s')) :
    ∃ vs, exec (visitNodes ss) s = (.ok vs, s') := by
  rw [visitAll, exec_map] at h
  rcases hr : exec (visitNodes ss) s with ⟨_ | vs, s₁⟩
  · rw [hr] at h
    cases h
  · rw [hr] at h
    cases h
    exact ⟨vs, rfl⟩

theorem yields_condition (c : Condition) :
    Yields T ((rules T).run c.toValue) (.still (ConditionCode T · c)) := by
  cases c with
  | odd e =>
    rw [Condition.toValue, run_tuple]
    refine Yields.congr (A := .andThen (.still (ExprCode · e)) (.events (oddEvents T))) ?_ ?_
    · unfold oddEvents
      cases hodd : T.hasOdd with
      | true =>
        rw [apply_rule "odd" _ ruleNames.odd (by simp only [rules, hodd, if_true]; rfl), oddRule]
        exact .argument rfl ((yields_expr e).bind fun r => Yields.emits _ r)
      | false =>
        -- without a rule the test is only visited, and leaves the value of its expression
        have hnodes : Yields T (visitNodes ([e.toValue].map (rules T).spot))
            (.andThen (.still (ExprCode · e)) (.events [])) := by
          rw [visitNodes_cons (isNode_expr e)]
          exact (yields_expr e).bind fun v => (Yields.nothing []).last fun vs => v :: vs
        rw [apply_none "odd" _ ruleNames.odd (by simp [rules, hodd])]
        exact hnodes.visitAll
    · refine fun fs n m es => ⟨?_, ?_⟩
      · rintro ⟨_, cs, _, ⟨rfl, hcs⟩, ⟨rfl, rfl⟩, rfl⟩
        exact ⟨rfl, .odd hcs⟩
      · rintro ⟨rfl, h⟩
        cases h with
        | odd hcs => exact ⟨_, _, _, ⟨rfl, hcs⟩, ⟨rfl, rfl⟩, rfl⟩
  | compare l op r =>
    rw [Condition.toValue, run_tuple, apply_rule "condition" _ ruleNames.condition rfl,
      conditionRule]
    refine (Yields.argument rfl (.argument rfl (.argument rfl ((yields_expr l).bind fun _ =>
      (yields_expr r).bind fun _ => (show Yields T _ (.still fun _ es =>
        ∃ w, T.relation (.str op.word) = .ok w ∧ es = [.compare w]) from ?_))))).congr ?_
    · rw [value_spot]
      cases hw : T.relation (.str op.word) with
      | ok w => exact (Yields.emits _ Value.none).congr (by simp [Codes.events, Codes.still])
      | error e =>
        refine .stops (fun g => rfl) (fun hT => ?_) (by simp [Codes.still])
        obtain ⟨w, hok⟩ := hT op
        rw [hw] at hok
        cases hok
    · refine fun fs n m es => ⟨?_, ?_⟩
      · rintro ⟨_, cs, _, ⟨rfl, hcs⟩, ⟨_, ds, _, ⟨rfl, hds⟩, ⟨rfl, w, hw, rfl⟩, rfl⟩, rfl⟩
        exact ⟨rfl, .compare hcs hds hw⟩
      · rintro ⟨rfl, h⟩
        cases h with
        | compare hcs hds hw =>
          exact ⟨_, _, _, ⟨rfl, hcs⟩, ⟨_, _, _, ⟨rfl, hds⟩, ⟨rfl, _, hw, rfl⟩, rfl⟩, rfl⟩

/-- the targets differ in whether the test of a loop stands before the body or after it -/
theorem yields_loop {test body : GenM Value} {A : Frames → List Event → Prop} {B : Codes}
    (top bottom : String) (htest : Yields T test (.still A)) (hbody : Yields T body B) :
    Yields T (do
      if T.testFirst then
        let _ ← test
        emit (.loopExit top bottom)
        let _ ← body
      else
        let _ ← body
        let _ ← test
      emit (.loopClose top bottom)
      pure Value.none) fun fs n m es => ∃ cs ds, A fs cs ∧ B fs n m ds ∧
        es = loopEvents T top bottom cs ds ++ [.loopClose top bottom] := by
  unfold loopEvents
  cases T.testFirst with
  | true =>
    refine (htest.bind fun _ => (Yields.emit (.loopExit top bottom)).bind fun _ =>
      hbody.bind fun _ => Yields.emits (.loopClose top bottom) Value.none).congr
        fun fs n m es => ⟨?_, ?_⟩
    · rintro ⟨_, cs, _, ⟨rfl, hcs⟩,
        ⟨_, _, _, ⟨rfl, rfl⟩, ⟨_, ds, _, hds, ⟨rfl, rfl⟩, rfl⟩, rfl⟩, rfl⟩
      exact ⟨cs, ds, hcs, hds, by simp⟩
    · rintro ⟨cs, ds, hcs, hds, rfl⟩
      exact ⟨_, _, _, ⟨rfl, hcs⟩,
        ⟨_, _, _, ⟨rfl, rfl⟩, ⟨_, _, _, hds, ⟨rfl, rfl⟩, rfl⟩, rfl⟩, by simp⟩
  | false =>
    refine (hbody.bind fun _ => htest.bind fun _ =>
      Yields.emits (.loopClose top bottom) Value.none).congr fun fs n m es => ⟨?_, ?_⟩
    · rintro ⟨_, ds, _, hds, ⟨_, cs, _, ⟨rfl, hcs⟩, ⟨rfl, rfl⟩, rfl⟩, rfl⟩
      exact ⟨cs, ds, hcs, hds, by simp⟩
    · rintro ⟨cs, ds, hcs, hds, rfl⟩
      exact ⟨_, _, _, hds, ⟨_, _, _, ⟨rfl, hcs⟩, ⟨rfl, rfl⟩, rfl⟩, by simp⟩

theorem yields_assign (x : String) (e : Expr) :
    Yields T ((rules T).run (Statement.assign x e).toValue) fun fs n m =>
      StatementCode T fs n (.assign x e) m := by
  rw [Statement.toValue, run_tuple, apply_rule "set" _ ruleNames.assign rfl, setRule]
  refine .argument rfl ?_
  rw [nameValue]
  refine (Yields.item rfl (.argument rfl ((yields_expr e).bind fun _ =>
    Yields.find (C := fun kind v => .still fun _ es => kind = .var ∧ es = [.save v.text])
      fun kind v hv => ?_))).congr fun fs n m es => ⟨?_, ?_⟩
  · cases kind with
    | var =>
      obtain ⟨l, rfl⟩ := hv (by decide)
      exact Yields.label.congr (by simp [Codes.events, Codes.still, Value.text])
    | const | proc => exact .stops (fun g => rfl) (fun _ => trivial) (by simp [Codes.still])
  · rintro ⟨_, cs, _, ⟨rfl, hcs⟩, ⟨kind, v, k, hk, rfl, rfl, rfl⟩, rfl⟩
    exact .assign hcs hk
  · intro h
    cases h with
    | assign hcs hk => exact ⟨_, _, _, ⟨rfl, hcs⟩, ⟨_, _, _, hk, rfl, rfl, rfl⟩, rfl⟩

theorem yields_call (p : String) :
    Yields T ((rules T).run (Statement.call p).toValue) fun fs n m =>
      StatementCode T fs n (.call p) m := by
  rw [Statement.toValue, run_tuple, apply_rule "call" _ ruleNames.call rfl, callRule]
  refine .argument rfl ?_
  rw [value_spot]
  refine (Yields.find (C := fun kind v => .still fun _ es => kind = .proc ∧ es = [.call v.text])
    fun kind v hv => ?_).congr fun fs n m es => ⟨?_, ?_⟩
  · cases kind with
    | proc =>
      obtain ⟨l, rfl⟩ := hv (by decide)
      exact (Yields.emits _ Value.none).congr (by simp [Codes.events, Codes.still, Value.text])
    | const | var => exact .stops (fun g => rfl) (fun _ => trivial) (by simp [Codes.still])
  · rintro ⟨kind, v, k, hk, rfl, rfl, rfl⟩
    exact .call hk
  · intro h
    cases h with
    | call hk => exact ⟨_, _, _, hk, rfl, rfl, rfl⟩

/-- a conditional around any condition and body -/
theorem yields_branch {test body : GenM Value} {A : Frames → List Event → Prop} {B : Codes}
    (l : String) (htest : Yields T test (.still A)) (hbody : Yields T body B) :
    Yields T (do
      let _ ← test
      emit (.branch l)
      let _ ← body
      emit (.join l)
      pure Value.none) fun fs n m es => ∃ cs ds, A fs cs ∧ B fs n m ds ∧
        es = cs ++ .branch l :: (ds ++ [.join l]) := by
  refine (htest.bind fun _ => (Yields.emit (.branch l)).bind fun _ => hbody.bind fun _ =>
    Yields.emits (.join l) Value.none).congr fun fs n m es => ⟨?_, ?_⟩
  · rintro ⟨_, cs, _, ⟨rfl, hcs⟩,
      ⟨_, _, _, ⟨rfl, rfl⟩, ⟨_, ds, _, hds, ⟨rfl, rfl⟩, rfl⟩, rfl⟩, rfl⟩
    exact ⟨cs, ds, hcs, hds, rfl⟩
  · rintro ⟨cs, ds, hcs, hds, rfl⟩
    exact ⟨_, _, _, ⟨rfl, hcs⟩,
      ⟨_, _, _, ⟨rfl, rfl⟩, ⟨_, _, _, hds, ⟨rfl, rfl⟩, rfl⟩, rfl⟩, rfl⟩

mutual

theorem yields_statement :
    ∀ s : Statement, Yields T ((rules T).run s.toValue) fun fs n m => StatementCode T fs n s m
  | .assign x e => yields_assign x e
  | .call p => yields_call p
  | .block ss => by
    rw [Statement.toValue, run_list, apply_none "begin" _ ruleNames.sequence rfl]
    refine (yields_statements ss).visitAll.congr fun fs n m es => ⟨.block, ?_⟩
    intro h
    cases h with
    | block hss => exact hss
  | .ifThen c s => by
    rw [Statement.toValue, run_tuple, apply_rule "if" _ ruleNames.ifThen rfl, ifRule]
    refine (Yields.newLabel fun l => .argument rfl (.argument rfl
      (yields_branch l (yields_condition c) (yields_statement s)))).congr fun fs n m es =>
        ⟨?_, ?_⟩
    · rintro ⟨cs, ds, hcs, hds, rfl⟩
      exact .ifThen hcs hds
    · intro h
      cases h with
      | ifThen hcs hds => exact ⟨_, _, hcs, hds, rfl⟩
  | .whileDo c s => by
    rw [Statement.toValue, run_tuple, apply_rule "while" _ ruleNames.whileDo rfl, whileRule]
    refine (Yields.newLabel fun top => Yields.newLabel fun bottom => .argument rfl (.argument rfl
      ((Yields.emit (.loopOpen top bottom)).bind fun _ =>
        yields_loop top bottom (yields_condition c) (yields_statement s)))).congr fun fs n m es =>
          ⟨?_, ?_⟩
    · rintro ⟨_, _, _, ⟨rfl, rfl⟩, ⟨cs, ds, hcs, hds, rfl⟩, rfl⟩
      exact .whileDo rfl rfl hcs hds
    · intro h
      cases h with
      | whileDo htop hbottom hcs hds =>
        subst htop hbottom
        exact ⟨_, _, _, ⟨rfl, rfl⟩, ⟨_, _, hcs, hds, rfl⟩, rfl⟩
  | .print e => by
    rw [Statement.toValue, run_tuple, apply_rule "print" _ ruleNames.print rfl, printRule]
    refine (Yields.argument rfl ((yields_expr e).bind fun _ =>
      Yields.emits .print Value.none)).congr fun fs n m es => ⟨?_, ?_⟩
    · rintro ⟨_, cs, _, ⟨rfl, hcs⟩, ⟨rfl, rfl⟩, rfl⟩
      exact .print hcs
    · intro h
      cases h with
      | print hcs => exact ⟨_, _, _, ⟨rfl, hcs⟩, ⟨rfl, rfl⟩, rfl⟩

theorem yields_statements : ∀ ss : List Statement,
    Yields T (visitNodes ((Statement.toValue.bodyValues ss).map (rules T).spot))
      fun fs n m => StatementsCode T fs n ss m
  | [] => by
    refine (Yields.nothing []).congr fun fs n m es => ⟨?_, ?_⟩
    · rintro ⟨rfl, rfl⟩
      exact .nil
    · rintro ⟨⟩
      exact ⟨rfl, rfl⟩
  | s :: ss => by
    rw [Statement.toValue.bodyValues, visitNodes_cons (isNode_statement s)]
    refine ((yields_statement s).bind fun v =>
      (yields_statements ss).last fun vs => v :: vs).congr fun fs n m es => ⟨?_, ?_⟩
    · rintro ⟨_, cs, ds, hcs, hds, rfl⟩
      exact .cons hcs hds
    · intro h
      cases h with
      | cons hcs hds => exact ⟨_, _, _, hcs, hds, rfl⟩

end

/-! ## declarations -/

theorem exec_declareVariables (fs : Frames) : ∀ (xs : List String) (f : Frame) (n : Nat)
    (es : List Event), exec (declareVariables T ((xs.map nameValue).map (rules T).spot))
      ⟨f :: fs, n, es⟩ =
        (.ok (), ⟨declareAll T n f xs :: fs, n + xs.length, es ++ cellEvents T n xs⟩)
  | [], f, n, es => by
    rw [cellEvents, List.append_nil]
    rfl
  | x :: xs, f, n, es => by
    rw [List.map_cons, List.map_cons, declareVariables, nameValue, exec_item _ _ _ rfl, value_spot,
      textOf, exec_then (exec_pure _ _), exec_then (exec_newLabel T _ _), modifyTop,
      exec_then (exec_modify _ _), exec_then (exec_emit _ _)]
    refine (exec_declareVariables fs xs _ _ _).trans ?_
    simp [declareAll, cellEvents, varLabel, Nat.add_assoc, Nat.add_comm 1]

theorem exec_declareConstants (fs : Frames) (n : Nat) (es : List Event) :
    ∀ (ds : List (String × Nat)) (f : Frame),
      exec (declareConstants ((ds.map defineValue).map (rules T).spot)) ⟨f :: fs, n, es⟩ =
        (.ok (), ⟨defineAll f ds :: fs, n, es⟩)
  | [], f => rfl
  | d :: ds, f => by
    rw [List.map_cons, List.map_cons, declareConstants, defineValue, exec_item _ _ _ rfl,
      exec_item _ _ _ rfl, value_spot, value_spot, key,
      if_pos (c := (Value.str d.1).isKey = true) rfl, exec_then (exec_pure _ _), modifyTop,
      exec_then (exec_modify _ _)]
    exact exec_declareConstants fs n es ds _


section Declarations

variable (fs : Frames) (f : Frame) (n : Nat) (es : List Event)
  (consts : Option (List (String × Nat))) (vars : Option (List String))

theorem constants_first (xs : List Value) : ∃ F : List Value → List Value,
    exec (visitNodes ((constsValue consts :: xs).map (rules T).spot)) ⟨f :: fs, n, es⟩ =
      exec (F <$> visitNodes (xs.map (rules T).spot))
        ⟨defineAll f (consts.getD []) :: fs, n, es⟩ := by
  cases consts with
  | none =>
    rw [constsValue, visitNodes_skip rfl]
    exact ⟨id, by rw [id_map]; rfl⟩
  | some ds =>
    have hrun : exec ((rules T).run (constsValue (some ds))) ⟨f :: fs, n, es⟩ =
        (.ok .none, ⟨defineAll f ds :: fs, n, es⟩) := by
      rw [constsValue, run_list, apply_rule "constants" _ ruleNames.consts rfl]
      exact exec_then (exec_declareConstants fs n es ds f)
    refine ⟨(Value.none :: ·), ?_⟩
    rw [visitNodes_cons rfl, exec_then hrun, map_eq_pure_bind]
    rfl

theorem variables_first (xs : List Value) : ∃ F : List Value → List Value,
    exec (visitNodes ((varsValue vars :: xs).map (rules T).spot)) ⟨f :: fs, n, es⟩ =
      exec (F <$> visitNodes (xs.map (rules T).spot)) ⟨declareAll T n f (vars.getD []) :: fs,
        n + (vars.getD []).length, es ++ cellEvents T n (vars.getD [])⟩ := by
  cases vars with
  | none =>
    rw [varsValue, visitNodes_skip rfl, Option.getD_none, cellEvents, List.append_nil]
    exact ⟨id, by rw [id_map]; rfl⟩
  | some ys =>
    have hrun : exec ((rules T).run (varsValue (some ys))) ⟨f :: fs, n, es⟩ =
        (.ok .none, ⟨declareAll T n f ys :: fs, n + ys.length, es ++ cellEvents T n ys⟩) := by
      rw [varsValue, run_list, apply_rule "variables" _ ruleNames.vars rfl]
      exact exec_then (exec_declareVariables fs ys f n es)
    refine ⟨(Value.none :: ·), ?_⟩
    rw [visitNodes_cons rfl, exec_then hrun, map_eq_pure_bind]
    rfl

/-- constants and variables are declared before what follows them is visited -/
theorem declarations_first (xs : List Value) : ∃ F : List Value → Value,
    exec (visitAll ((constsValue consts :: varsValue vars :: xs).map (rules T).spot))
      ⟨f :: fs, n, es⟩ =
      exec (F <$> visitNodes (xs.map (rules T).spot)) ⟨declared T n f consts vars :: fs,
        n + (vars.getD []).length, es ++ cellEvents T n (vars.getD [])⟩ := by
  obtain ⟨F, hF⟩ := constants_first (T := T) fs f n es consts (varsValue vars :: xs)
  obtain ⟨G, hG⟩ := variables_first (T := T) fs (defineAll f (consts.getD [])) n es vars xs
  refine ⟨fun vs => gather (F (G vs)), ?_⟩
  rw [visitAll, exec_map, hF, exec_map, hG, exec_map, exec_map, declared]
  cases exec (visitNodes (xs.map (rules T).spot)) _ with
  | mk r g => cases r <;> rfl

/-- the declarations of a procedure -/
theorem exec_declarations :
    ∃ v, exec (visitAll ([constsValue consts, varsValue vars].map (rules T).spot))
    ⟨f :: fs, n, es⟩ = (.ok v, ⟨declared T n f consts vars :: fs, n + (vars.getD []).length,
      es ++ cellEvents T n (vars.getD [])⟩) := by
  obtain ⟨F, hF⟩ := declarations_first (T := T) fs f n es consts vars []
  exact ⟨F [], hF⟩

/-- the declarations of a program -/
theorem exec_block (procs : List (String × Block)) : ∃ F : Unit → Value,
    exec (visitAll
      ([constsValue consts, varsValue vars, procsValue (Block.procValues procs)].map
        (rules T).spot))
      ⟨f :: fs, n, es⟩ =
        exec (F <$> declareProcedures T ((Block.procValues procs).map (rules T).spot))
        ⟨declared T n f consts vars :: fs, n + (vars.getD []).length,
          es ++ cellEvents T n (vars.getD [])⟩ := by
  obtain ⟨F, hF⟩ :=
    declarations_first (T := T) fs f n es consts vars [procsValue (Block.procValues procs)]
  cases procs with
  | nil => exact ⟨fun _ => F [], hF⟩
  | cons q procs =>
    obtain ⟨p, b⟩ := q
    refine ⟨fun _ => F [.none], hF.trans ?_⟩
    rw [Block.procValues, procsValue, visitNodes_cons rfl, run_list,
      apply_rule "procedures" _ ruleNames.procs rfl]
    · rw [List.map_cons (f := (rules T).spot), List.drop_one, List.tail_cons, exec_map, exec_bind,
        exec_bind, exec_map]
      cases exec (declareProcedures T _) _ with
      | mk r g => cases r <;> rfl
    · exact List.cons_ne_nil _ _

end Declarations

/-- what the procedures of a block come to: the code of each, and a frame that has them all -/
theorem ends_procedures (fs : Frames) : ∀ (procs : List (String × Block)) (f : Frame) (n : Nat)
    (es : List Event), (∀ e ∈ f :: fs, Worded e) →
    Ends T (fun g' => ∃ m f' ds, ProcsCode T fs n f procs m f' ds ∧ g' = ⟨f' :: fs, m, es ++ ds⟩)
      (exec (declareProcedures T ((Block.procValues procs).map (rules T).spot)) ⟨f :: fs, n, es⟩)
  | [], f, n, es, _ => by
    refine .answer ⟨n, f, [], .nil, by rw [List.append_nil]⟩ ?_
    rintro _ ⟨_, _, _, ⟨⟩, rfl⟩
    rw [List.append_nil]
  | (p, .mk consts vars inner body) :: rest, f, n, es, hfs => by
    rw [Block.procValues, List.map_cons, declareProcedures, exec_item _ _ _ rfl, value_spot, textOf,
      exec_then (exec_pure _ _), exec_then (exec_newLabel T _ _), modifyTop,
      exec_then (exec_modify _ _), openFrame, exec_then (exec_modify _ _),
      exec_then (exec_emit _ _), exec_item _ _ _ rfl, Block.toValue, exec_slice]
    obtain ⟨_, hdecl⟩ :=
      exec_declarations (T := T) (f.declare (.str p) (.str (procLabel T n p)) :: fs) {} (n + 1)
        (es ++ [] ++ [.procHead p]) consts vars
    change Ends T _ (exec (visitAll ([constsValue consts, varsValue vars].map (rules T).spot) >>= _)
      ⟨{} :: f.declare (.str p) (.str (procLabel T n p)) :: fs, n + 1, es ++ [] ++ [.procHead p]⟩)
    rw [exec_then hdecl, exec_then (exec_emit _ _), exec_item _ _ _ rfl, exec_item _ _ _ rfl]
    have hworded : ∀ e ∈ declared T (n + 1) {} consts vars ::
        f.declare (.str p) (.str (procLabel T n p)) :: fs, Worded e :=
      Scoped.procedure rfl trivial consts (fun _ _ => trivial) hfs
    -- the body leaves the frames as they are, so the one that is closed is that of the procedure
    refine (yields_statement body _ hworded).bind ?_ ?_
    · rintro _ _ ⟨m, cs, hcs, rfl⟩ hone
      rw [exec_then (exec_emit _ _)]
      refine (ends_procedures fs rest _ _ _ (List.forall_mem_cons.1 hworded).2).congr fun g' =>
        ⟨?_, ?_⟩
      · rintro ⟨k, f', ds, hds, rfl⟩
        exact ⟨k, f', _, .cons rfl rfl hcs hds, by simp [procLabel]⟩
      · rintro ⟨k, f', _, h, rfl⟩
        cases h with
        | cons hlabel hg hcs' hds =>
          subst hlabel hg
          obtain ⟨rfl, rfl⟩ := Gen.after_inj (hone _ ⟨_, _, hcs', rfl⟩)
          exact ⟨k, f', _, hds, by simp [procLabel]⟩
    · rintro _ ⟨k, f', _, h, rfl⟩
      cases h with
      | cons hlabel hg hcs =>
        subst hlabel hg
        exact ⟨_, _, _, hcs, rfl⟩

theorem ends_program (p : Program) :
    Ends T (fun g' => ∃ m f es, ProgramCode T p m f es ∧ g' = ⟨[f], m, es⟩)
    (exec ((rules T).run p.toValue) ⟨[{}], 0, []⟩) := by
  obtain ⟨⟨consts, vars, procs, body⟩⟩ := p
  rw [Program.toValue, run_tuple, apply_rule "program" _ ruleNames.program rfl, programRule,
    exec_then (exec_emit _ _), exec_argument _ _ rfl, Block.toValue, exec_slice]
  obtain ⟨F, hF⟩ := exec_block (T := T) [] {} 0 [.start] consts vars procs
  have hframe : Worded (declared T 0 {} consts vars) :=
    Scoped.empty.declared consts fun _ _ => trivial
  refine Ends.bind (hF ▸ (ends_procedures [] procs _ _ _
    (List.forall_mem_singleton.2 hframe)).map F) ?_ ?_
  · rintro _ _ ⟨k, f, cs, hcs, rfl⟩ hone
    have hprocs : ∀ {k' f' cs'}, ProcsCode T [] (vars.getD []).length (declared T 0 {} consts vars)
        procs k' f' cs' → f' = f ∧ k' = k ∧ cs' = cs := by
      intro k' f' cs' h
      rw [← Nat.zero_add (vars.getD []).length] at h
      simpa using hone _ ⟨_, _, _, h, rfl⟩
    rw [Nat.zero_add] at hcs
    rw [exec_then (exec_emit _ _), exec_item _ _ _ rfl]
    have hf : Worded f := Scoped.procs hcs hframe fun _ _ => trivial
    refine (yields_statement body _ (List.forall_mem_singleton.2 hf)).bind ?_ ?_
    · rintro _ _ ⟨m, ds, hds, rfl⟩ hone'
      refine .answer ⟨m, f, _, .mk hcs hds, by simp⟩ ?_
      rintro _ ⟨m', f', _, ⟨hcs', hds'⟩, rfl⟩
      obtain ⟨rfl, rfl, rfl⟩ := hprocs hcs'
      obtain ⟨rfl, rfl⟩ := Gen.after_inj (hone' _ ⟨_, _, hds', rfl⟩)
      simp
    · rintro _ ⟨m', f', _, ⟨hcs', hds'⟩, rfl⟩
      obtain ⟨rfl, rfl, rfl⟩ := hprocs hcs'
      exact ⟨_, _, _, hds', rfl⟩
  · rintro _ ⟨m, f, _, ⟨hcs, -⟩, rfl⟩
    rw [← Nat.zero_add (vars.getD []).length] at hcs
    exact ⟨_, _, _, _, hcs, rfl⟩

/-- **A generator that answers has emitted the code of the program**, and answers the frame of its
block. -/
theorem program_emits {p : Program} {f : Frame} {r : Value} {text : String} {g : Gen}
    (h : translate T p.toValue {} = (.ok (f, r), text, g)) :
    ∃ es, ProgramCode T p g.labels f es ∧ text = render T es := by
  obtain ⟨hok, htext, hg⟩ : (exec (generate T p.toValue) {}).1 = .ok (f, r) ∧
      render T (exec (generate T p.toValue) {}).2.events = text ∧
      { (exec (generate T p.toValue) {}).2 with events := [] } = g :=
    ⟨congrArg Prod.fst h, congrArg (·.2.1) h, congrArg (·.2.2) h⟩
  obtain ⟨g', hrun⟩ : ∃ g', exec (generate T p.toValue) {} = (.ok (f, r), g') :=
    ⟨_, Prod.ext hok rfl⟩
  rw [hrun] at htext hg
  rw [generate, openFrame, exec_then (exec_modify _ _)] at hrun
  obtain ⟨_, g₁, h₁, hrun⟩ := exec_bind_ok.1 hrun
  obtain ⟨m, f₁, es, hcode, rfl⟩ := (h₁ ▸ ends_program p :).ok
  cases hrun
  subst hg
  exact ⟨es, hcode, htext.symm⟩

end Generator

end Pl0Kit
