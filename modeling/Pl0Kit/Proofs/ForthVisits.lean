import Pl0Kit.Proofs.ForthGrowth

/-!
# Where a Forth translator comes to

A part of a program is visited in the state that the parts before it lead to, whatever becomes of
the parts after it:

* `Comes p home t`      a new translator that visits `p` comes to the procedure `home`, in the state
                        `t`;
* `InBody p home t s u`   from there it comes to the statement `s` of the procedure's own body, in
                          the state `u`.

A procedure is given with those around it, the innermost first; the empty list stands for the
program.  What is emitted for a part that is visited is at the start of what is left to the text
(`Comes.emits_within`, `InBody.emits_within`), and the state is given by the parts before
(`Comes.at`, `InBody.emits`).
-/

namespace Pl0Kit.Forth

open Act Generator Text

/-! ## procedures and statements that are visited -/

/-- a procedure of a program and the procedures around it, the innermost first -/
abbrev Home := List (String × Block)

namespace Home

def path (home : Home) : List String := home.map Prod.fst

def block (p : Program) : Home → Block
  | [] => p.block
  | (_, b) :: _ => b

def word : Home → String
  | [] => "run"
  | (q, _) :: _ => q

def value (p : Program) : Home → Value
  | [] => p.toValue
  | (q, b) :: _ => procedureValue q b

/-- a translator that comes to a procedure is inside its definition next -/
def enter : Home → Translator → Translator
  | [], t => t
  | (q, _) :: _, t => t.enter q

end Home

/-- a new translator that visits the program comes to a procedure -/
inductive Comes (p : Program) : Home → Translator → Prop
  | program : Comes p [] {}
  | procedure {home : Home} {consts : Option (List (String × Nat))} {vars : Option (List String)}
      {pre post : List (String × Block)} {q : String} {b : Block} {body : Statement}
      {t t₁ t₂ : Translator}
      {vs ws : List Value} :
      Comes p home t → home.block p = .mk consts vars (pre ++ (q, b) :: post) body →
      exec (visitNodes ([constsValue consts, varsValue vars].map rules.spot)) (home.enter t) =
        (.ok vs, t₁) →
      exec (visitNodes ((Block.procValues pre).map rules.spot)) t₁ = (.ok ws, t₂) →
      Comes p ((q, b) :: home) t₂

theorem Comes.first {p : Program} {home : Home} {consts : Option (List (String × Nat))}
    {vars : Option (List String)} {post : List (String × Block)} {q : String} {b : Block}
    {body : Statement} {t t₁ : Translator} {vs : List Value} (h : Comes p home t)
    (hblock : home.block p = .mk consts vars ((q, b) :: post) body)
    (hown : exec (visitNodes ([constsValue consts, varsValue vars].map rules.spot)) (home.enter t) =
      (.ok vs, t₁)) :
    Comes p ((q, b) :: home) t₁ := by
  have hsplit : home.block p = .mk consts vars ([] ++ (q, b) :: post) body := hblock
  exact .procedure h hsplit hown rfl

/-- visiting a statement, the translator comes to a statement in it -/
inductive Inside : Statement → Translator → Statement → Translator → Prop
  | here {s : Statement} {t : Translator} : Inside s t s t
  | block {pre post : List Statement} {s s' : Statement} {t t₁ u : Translator} {vs : List Value} :
      exec (visitNodes ((Statement.toValue.bodyValues pre).map rules.spot)) t = (.ok vs, t₁) →
      Inside s t₁ s' u → Inside (.block (pre ++ s :: post)) t s' u
  | ifThen {test : Condition} {s s' : Statement} {t t₁ u : Translator} {v : Value} :
      exec (rules.run test.toValue) t = (.ok v, t₁) → Inside s (t₁.after [.put " if "]) s' u →
        Inside (.ifThen test s) t s' u
  | whileDo {test : Condition} {s s' : Statement} {t t₁ u : Translator} {v : Value} :
      exec (rules.run test.toValue) (t.after [.say " begin "]) = (.ok v, t₁) →
        Inside s (t₁.after [.say " while "]) s' u → Inside (.whileDo test s) t s' u

/-- from a procedure that it comes to, the translator comes to a statement of the procedure's own
body -/
def InBody (p : Program) (home : Home) (t : Translator) (s : Statement) (u : Translator) : Prop :=
  ∃ consts vars procs body v t₁, home.block p = .mk consts vars procs body ∧
    exec (visitAll
      ([constsValue consts, varsValue vars, procsValue (Block.procValues procs)].map rules.spot))
      (home.enter t) = (.ok v, t₁) ∧
    Inside body (t₁.after [.put (heading home.word)]) s u

/-! ## their emissions are part of the text -/

theorem bodyValues_append (ss ts : List Statement) : Statement.toValue.bodyValues (ss ++ ts) =
    Statement.toValue.bodyValues ss ++ Statement.toValue.bodyValues ts := by
  induction ss with
  | nil => rfl
  | cons s ss ih => exact congrArg (s.toValue :: ·) ih

theorem procValues_append (ps qs : List (String × Block)) :
    Block.procValues (ps ++ qs) = Block.procValues ps ++ Block.procValues qs := by
  induction ps with
  | nil => rfl
  | cons q ps ih =>
    obtain ⟨q, b⟩ := q
    rw [List.cons_append, Block.procValues, ih]
    rfl

theorem exec_visitNodes_append {as : List (Spot Translator)} (bs : List (Spot Translator))
    {t t₁ : Translator} {vs : List Value} (h : exec (visitNodes as) t = (.ok vs, t₁)) :
    (exec (visitNodes (as ++ bs)) t).2 = (exec (visitNodes bs) t₁).2 := by
  induction as generalizing t vs with
  | nil =>
    cases h
    rfl
  | cons a as ih =>
    rw [visitNodes] at h
    rw [List.cons_append, visitNodes]
    split
    · rename_i hnode
      rw [if_pos hnode] at h
      obtain ⟨v, t₂, hfirst, h⟩ := exec_bind_ok.1 h
      obtain ⟨ws, t₃, hrest, hend⟩ := exec_bind_ok.1 h
      cases hend
      have hstate := ih hrest
      rw [exec_then hfirst, exec_bind, ← hstate]
      rcases exec (visitNodes (as ++ bs)) t₂ with ⟨e | us, t₄⟩
      · rfl
      · rfl
    · rename_i hnode
      rw [if_neg hnode] at h
      exact ih h

theorem exec_visitAll (ss : List (Spot Translator)) (t : Translator) :
    (exec (visitAll ss) t).2 = (exec (visitNodes ss) t).2 := by
  rw [visitAll, exec_map]
  rcases exec (visitNodes ss) t with ⟨e | vs, t'⟩
  · rfl
  · rfl

theorem within_bind {α β : Type} (p : ForthM α) {f : α → ForthM β} (hf : ∀ a, Grows (f a))
    (t : Translator) : (exec p t).2.emissions <+: (exec (p >>= f) t).2.emissions := by
  rw [exec_bind]
  rcases exec p t with ⟨e | a, t'⟩
  · exact List.prefix_refl _
  · exact hf a t'

theorem within_visitNodes {xs ys : List Value} {x : Value} (hx : x.isNode = true)
    {t t₁ : Translator} {vs : List Value}
    (h : exec (visitNodes (xs.map rules.spot)) t = (.ok vs, t₁)) :
    (exec (rules.run x) t₁).2.emissions <+:
    (exec (visitNodes ((xs ++ x :: ys).map rules.spot)) t).2.emissions := by
  rw [List.map_append, exec_visitNodes_append _ h, visitNodes_cons hx]
  exact within_bind _ (fun _ => (grows_visitNodes (growing_spots ys)).bind fun _ => .answer _) t₁

theorem Inside.emits_within {s s' : Statement} {t u : Translator} (h : Inside s t s' u) :
    (exec (rules.run s'.toValue) u).2.emissions <+: (exec (rules.run s.toValue) t).2.emissions := by
  induction h with
  | here => exact List.prefix_refl _
  | @block pre post s s' t t₁ u vs hpre _ ih =>
    refine ih.trans ?_
    rw [run_block, exec_visitAll, bodyValues_append]
    exact within_visitNodes (isNode_statement s) hpre
  | @ifThen test s s' t t₁ u v htest _ ih =>
    refine ih.trans ?_
    rw [run_ifThen]
    refine List.IsPrefix.trans ?_ (within_bind _ (fun _ => .answer _) t)
    rw [exec_then htest, put, exec_then (exec_emit _ _)]
    exact within_bind _ (fun _ => .emission _) _
  | @whileDo test s s' t t₁ u v htest _ ih =>
    refine ih.trans ?_
    rw [run_whileDo]
    refine List.IsPrefix.trans ?_ (within_bind _ (fun _ => .answer _) t)
    rw [say, exec_then (exec_emit _ _), exec_then htest, say, exec_then (exec_emit _ _)]
    exact within_bind _ (fun _ => .emission _) _

theorem within_define (p : Program) (home : Home) (t : Translator) :
    (exec (define (heading home.word) (home.block p)) (home.enter t)).2.emissions <+:
      (exec (rules.run (home.value p)) t).2.emissions := by
  cases home with
  | nil =>
    show _ <+: (exec (rules.run (Program.toValue ⟨p.block⟩)) t).2.emissions
    rw [run_program]
    exact within_bind _ (fun _ => (Grows.emission _).bind fun _ => .answer _) t
  | cons q home =>
    obtain ⟨q, b⟩ := q
    show _ <+: (exec (rules.run (procedureValue q b)) t).2.emissions
    rw [run_procedure, exec_then (exec_modify _ _)]
    have hleave : Grows (modify Translator.leave : ForthM PUnit) := .change fun _ => rfl
    exact within_bind _ (fun _ => hleave.bind fun _ => .answer _) _

theorem InBody.emits_within {p : Program} {home : Home} {s : Statement} {t u : Translator}
    (h : InBody p home t s u) :
    (exec (rules.run s.toValue) u).2.emissions <+:
    (exec (rules.run (home.value p)) t).2.emissions := by
  obtain ⟨consts, vars, procs, body, v, t₁, hblock, hdecls, hbody⟩ := h
  refine (hbody.emits_within.trans ?_).trans (within_define p home t)
  rw [hblock, define, exec_then hdecls, put, exec_then (exec_emit _ _)]
  exact within_bind _ (fun _ => .emission _) _

/-- **What is emitted for a procedure is part of what is emitted for the program.** -/
theorem Comes.emits_within {p : Program} {home : Home} {t : Translator} (h : Comes p home t) :
    (exec (rules.run (home.value p)) t).2.emissions <+: emitted p.toValue {} := by
  induction h with
  | program => exact List.prefix_refl _
  | @procedure home consts vars pre post q b body t t₁ t₂ vs ws _ hblock hown hpre ih =>
    refine List.IsPrefix.trans ?_ ((within_define p home t).trans ih)
    rw [hblock, define]
    refine List.IsPrefix.trans ?_ (within_bind _ (fun _ => (Grows.emission _).bind fun _ =>
      (grows_run _).bind fun _ => .emission _) _)
    have hprocs : (procsValue (Block.procValues (pre ++ (q, b) :: post))) =
        .list (.str "PROCEDURES" ::
          (Block.procValues pre ++ procedureValue q b :: Block.procValues post)) := by
      rw [procValues_append]
      cases pre with
      | nil => rfl
      | cons r pre =>
        obtain ⟨r, b⟩ := r
        rfl
    rw [exec_visitAll, hprocs]
    refine List.IsPrefix.trans ?_ (within_visitNodes rfl hown)
    rw [run_list, apply_none "procedures" _ ruleNames.procs rfl, exec_visitAll]
    exact within_visitNodes rfl hpre

/-! ## the state they are visited in -/

/-- the emissions for what is before a statement inside another one -/
inductive Before (c : Context) : Statement → Statement → List Emission → Prop
  | here {s : Statement} : Before c s s []
  | block {pre post : List Statement} {s s' : Statement} {es ds : List Emission} :
      StatementsText c pre es →
      Before c s s' ds → Before c (.block (pre ++ s :: post)) s' (es ++ ds)
  | ifThen {test : Condition} {s s' : Statement} {es ds : List Emission} :
      ConditionText c.names test es →
      Before c s s' ds → Before c (.ifThen test s) s' (es ++ .put " if " :: ds)
  | whileDo {test : Condition} {s s' : Statement} {es ds : List Emission} :
      ConditionText c.names test es →
      Before c s s' ds → Before c (.whileDo test s) s'
        (.say " begin " :: (es ++ .say " while " :: ds))

theorem Inside.emits {c : Context} {s s' : Statement} {t u : Translator} (h : Inside s t s' u)
    (hat : At c t) : ∃ ds, Before c s s' ds ∧ u = t.after ds := by
  induction h with
  | @here s t => exact ⟨[], .here, (after_nil t).symm⟩
  | block hpre _ ih =>
    obtain ⟨es, hes, rfl⟩ := emits_statements _ hat hpre
    obtain ⟨ds, hds, rfl⟩ := ih (hat.after es)
    exact ⟨_, .block hes hds, after_after _ _ _⟩
  | ifThen htest _ ih =>
    obtain ⟨es, hes, rfl⟩ := emits_condition _ hat htest
    obtain ⟨ds, hds, rfl⟩ := ih ((hat.after es).after _)
    refine ⟨_, .ifThen hes hds, ?_⟩
    rw [after_after, after_after]
    rfl
  | whileDo htest _ ih =>
    obtain ⟨es, hes, rfl⟩ := emits_condition _ (hat.after _) htest
    obtain ⟨ds, hds, rfl⟩ := ih (((hat.after _).after es).after _)
    refine ⟨_, .whileDo hes hds, ?_⟩
    simp only [after_after, List.append_assoc, List.cons_append, List.nil_append]

variable {p : Program} {home : Home} {L : Lexicon} {t : Translator}

theorem Home.emissions_enter (home : Home) (t : Translator) :
    (home.enter t).emissions = t.emissions := by
  cases home <;> rfl

theorem Home.at_enter (hat : At ⟨home.path.tail, L⟩ t) : At ⟨home.path, L⟩ (home.enter t) := by
  cases home with
  | nil => exact hat
  | cons q home => exact hat.enter q.1

theorem exec_upTo {consts : Option (List (String × Nat))} {vars : Option (List String)}
    {pre : List (String × Block)} {t₁ t₂ : Translator} {vs ws : List Value} {path : List String}
    (hat : At ⟨path, L⟩ t)
    (hown : exec (visitNodes ([constsValue consts, varsValue vars].map rules.spot)) t =
      (.ok vs, t₁))
    (hpre : exec (visitNodes ((Block.procValues pre).map rules.spot)) t₁ = (.ok ws, t₂)) :
    ∃ es, ProcsText path (L.enter consts vars) pre es ∧
      t₂ = t.knowing ((L.enter consts vars).addProcs pre)
        ((vars.getD []).map variableLine ++ es) := by
  obtain ⟨us, hend⟩ := exec_declarations hat.names hown
  cases hend
  obtain ⟨es, hes, rfl⟩ := exec_procs pre (hat.knowing _ _) hpre
  refine ⟨es, hes, ?_⟩
  simp [Translator.knowing]

/-- a translator that comes to a procedure is inside those around it, and its flags are back -/
theorem Comes.at (h : Comes p home t) : ∃ L, At ⟨home.path.tail, L⟩ t := by
  induction h with
  | program => exact ⟨_, at_start⟩
  | procedure _ _ hown hpre ih =>
    obtain ⟨L, hat⟩ := ih
    obtain ⟨es, -, rfl⟩ := exec_upTo (Home.at_enter hat) hown hpre
    exact ⟨_, (Home.at_enter hat).knowing _ _⟩

/-- a statement of the body of a procedure is visited after the declarations of its block -/
theorem InBody.emits {s : Statement} {u : Translator} (h : InBody p home t s u)
    (hat : At ⟨home.path.tail, L⟩ t) :
    ∃ consts vars procs body es ds, home.block p = .mk consts vars procs body ∧
      ProcsText home.path (L.enter consts vars) procs es ∧
      Before ⟨home.path, L.addBlock (home.block p)⟩ body s ds ∧
      u = (home.enter t).knowing (L.addBlock (home.block p))
        ((vars.getD []).map variableLine ++ (es ++ .put (heading home.word) :: ds)) := by
  obtain ⟨consts, vars, procs, body, v, t₁, hblock, hdecls, hbody⟩ := h
  obtain ⟨_, hdecls⟩ := visitAll_ok hdecls
  obtain ⟨_, hdecls⟩ := exec_declarations (Home.at_enter hat).names hdecls
  obtain ⟨_, hdecls⟩ := exec_procsValue hdecls
  obtain ⟨es, hes, rfl⟩ := exec_procs procs ((Home.at_enter hat).knowing _ _) hdecls
  obtain ⟨ds, hds, rfl⟩ := hbody.emits ((((Home.at_enter hat).knowing _ _).knowing _ _).after _)
  rw [hblock, Lexicon.addBlock]
  refine ⟨consts, vars, procs, body, es, ds, rfl, hes, hds, ?_⟩
  simp [Translator.knowing, Translator.after]

/-! ## a visit that answers comes everywhere -/

/-- a procedure that is declared in the program -/
inductive Declares (p : Program) : Home → Prop
  | program : Declares p []
  | procedure {home : Home} {q : String} {b : Block} : Declares p home →
      (q, b) ∈ (home.block p).procs → Declares p ((q, b) :: home)

/-- a statement that is part of another one -/
inductive Encloses : Statement → Statement → Prop
  | here {s : Statement} : Encloses s s
  | block {ss : List Statement} {s s' : Statement} : s ∈ ss → Encloses s s' →
      Encloses (.block ss) s'
  | ifThen {test : Condition} {s s' : Statement} : Encloses s s' → Encloses (.ifThen test s) s'
  | whileDo {test : Condition} {s s' : Statement} : Encloses s s' → Encloses (.whileDo test s) s'

theorem exec_visitNodes_split {as bs : List (Spot Translator)} {t t' : Translator} {vs : List Value}
    (h : exec (visitNodes (as ++ bs)) t = (.ok vs, t')) :
    ∃ us t₁ ws, exec (visitNodes as) t = (.ok us, t₁) ∧ exec (visitNodes bs) t₁ = (.ok ws, t') := by
  induction as generalizing t vs with
  | nil => exact ⟨[], t, vs, rfl, h⟩
  | cons a as ih =>
    rw [List.cons_append, visitNodes] at h
    rw [visitNodes]
    split at h
    · rename_i hnode
      obtain ⟨v, t₁, hfirst, h⟩ := exec_bind_ok.1 h
      obtain ⟨ws, t₂, hrest, hend⟩ := exec_bind_ok.1 h
      cases hend
      obtain ⟨us, t₃, xs, has, hbs⟩ := ih hrest
      refine ⟨v :: us, t₃, xs, ?_, hbs⟩
      rw [if_pos hnode, exec_then hfirst, exec_then has]
      rfl
    · rename_i hnode
      obtain ⟨us, t₁, ws, has, hbs⟩ := ih h
      exact ⟨us, t₁, ws, by rw [if_neg hnode]; exact has, hbs⟩

theorem exec_visitNodes_mid {xs ys : List Value} {x : Value} (hx : x.isNode = true)
    {t t' : Translator} {vs : List Value}
    (h : exec (visitNodes ((xs ++ x :: ys).map rules.spot)) t = (.ok vs, t')) :
    ∃ us t₁ v t₂, exec (visitNodes (xs.map rules.spot)) t = (.ok us, t₁) ∧
    exec (rules.run x) t₁ = (.ok v, t₂) := by
  rw [List.map_append] at h
  obtain ⟨us, t₁, ws, hxs, h⟩ := exec_visitNodes_split h
  rw [visitNodes_cons hx] at h
  obtain ⟨v, t₂, hrun, -⟩ := exec_bind_ok.1 h
  exact ⟨us, t₁, v, t₂, hxs, hrun⟩

theorem exec_home {v : Value} {t' : Translator}
    (h : exec (rules.run (home.value p)) t = (.ok v, t')) :
    ∃ u t₁, exec (define (heading home.word) (home.block p)) (home.enter t) = (.ok u, t₁) := by
  cases home with
  | nil =>
    have hrun : exec (rules.run (Program.toValue ⟨p.block⟩)) t = (.ok v, t') := h
    rw [run_program] at hrun
    obtain ⟨u, t₁, hdefine, -⟩ := exec_bind_ok.1 hrun
    exact ⟨u, t₁, hdefine⟩
  | cons q home =>
    obtain ⟨u, t₁, hdefine, -⟩ := exec_procedure h
    exact ⟨u, t₁, hdefine⟩

/-- **A translation that answers has come to every procedure**, and to its end. -/
theorem comes_of_ok {v : Value} {t' : Translator} (h : exec (rules.run p.toValue) {} = (.ok v, t'))
    (hd : Declares p home) :
    ∃ t v t', Comes p home t ∧ exec (rules.run (home.value p)) t = (.ok v, t') := by
  induction hd with
  | program => exact ⟨{}, v, t', .program, h⟩
  | @procedure home q b _ hmem ih =>
    obtain ⟨t, v, t', hcomes, hrun⟩ := ih
    obtain ⟨u, t₁, hdefine⟩ := exec_home hrun
    rcases hblock : home.block p with ⟨consts, vars, procs, body⟩
    rw [hblock] at hmem hdefine
    obtain ⟨pre, post, rfl⟩ : ∃ pre post, procs = pre ++ (q, b) :: post := List.append_of_mem hmem
    rw [define] at hdefine
    obtain ⟨_, t₂, hdecls, -⟩ := exec_bind_ok.1 hdefine
    obtain ⟨vs, hdecls⟩ := visitAll_ok hdecls
    have hparts : exec (visitNodes ([constsValue consts, varsValue vars].map rules.spot ++
        [procsValue (Block.procValues (pre ++ (q, b) :: post))].map rules.spot)) (home.enter t) =
          (.ok vs, t₂) := hdecls
    obtain ⟨us, t₃, ws, hown, hdecls⟩ := exec_visitNodes_split hparts
    obtain ⟨ws, hdecls⟩ := exec_procsValue hdecls
    rw [procValues_append] at hdecls
    obtain ⟨xs, t₄, w, t₅, hpre, hproc⟩ := exec_visitNodes_mid rfl hdecls
    exact ⟨t₄, w, t₅, .procedure hcomes hblock hown hpre, hproc⟩

theorem inside_of_ok {s s' : Statement} (h : Encloses s s') {t t' : Translator} {v : Value}
    (hrun : exec (rules.run s.toValue) t = (.ok v, t')) :
    ∃ u w u', Inside s t s' u ∧ exec (rules.run s'.toValue) u = (.ok w, u') := by
  induction h generalizing t v t' with
  | here => exact ⟨t, v, t', .here, hrun⟩
  | block hmem _ ih =>
    obtain ⟨pre, post, rfl⟩ := List.append_of_mem hmem
    rw [run_block] at hrun
    obtain ⟨_, hrun⟩ := visitAll_ok hrun
    rw [bodyValues_append] at hrun
    obtain ⟨_, t₁, _, _, hpre, hs⟩ := exec_visitNodes_mid (isNode_statement _) hrun
    obtain ⟨u, w, u', hin, hend⟩ := ih hs
    exact ⟨u, w, u', .block hpre hin, hend⟩
  | ifThen _ ih =>
    rw [run_ifThen] at hrun
    obtain ⟨_, t₁, hrule, -⟩ := exec_bind_ok.1 hrun
    obtain ⟨_, t₂, htest, hrule⟩ := exec_bind_ok.1 hrule
    rw [put, exec_then (exec_emit _ _)] at hrule
    obtain ⟨_, t₃, hs, -⟩ := exec_bind_ok.1 hrule
    obtain ⟨u, w, u', hin, hend⟩ := ih hs
    exact ⟨u, w, u', .ifThen htest hin, hend⟩
  | whileDo _ ih =>
    rw [run_whileDo] at hrun
    obtain ⟨_, t₁, hrule, -⟩ := exec_bind_ok.1 hrun
    rw [say, exec_then (exec_emit _ _)] at hrule
    obtain ⟨_, t₂, htest, hrule⟩ := exec_bind_ok.1 hrule
    rw [say, exec_then (exec_emit _ _)] at hrule
    obtain ⟨_, t₃, hs, -⟩ := exec_bind_ok.1 hrule
    obtain ⟨u, w, u', hin, hend⟩ := ih hs
    exact ⟨u, w, u', .whileDo htest hin, hend⟩

/-- **A procedure that is visited to its end has all statements of its body visited to their
ends.** -/
theorem inBody_of_ok {s : Statement} {v : Value} {t' : Translator}
    (h : exec (rules.run (home.value p)) t = (.ok v, t')) (hs : Encloses (home.block p).body s) :
    ∃ u w u', InBody p home t s u ∧ exec (rules.run s.toValue) u = (.ok w, u') := by
  obtain ⟨_, _, hdefine⟩ := exec_home h
  rcases hblock : home.block p with ⟨consts, vars, procs, body⟩
  rw [hblock] at hs hdefine
  rw [define] at hdefine
  obtain ⟨_, t₁, hdecls, hdefine⟩ := exec_bind_ok.1 hdefine
  rw [put, exec_then (exec_emit _ _)] at hdefine
  obtain ⟨_, _, hbody, -⟩ := exec_bind_ok.1 hdefine
  obtain ⟨u, w, u', hin, hend⟩ := inside_of_ok hs hbody
  exact ⟨u, w, u', ⟨consts, vars, procs, body, _, t₁, hblock, hdecls, hin⟩, hend⟩

end Pl0Kit.Forth
