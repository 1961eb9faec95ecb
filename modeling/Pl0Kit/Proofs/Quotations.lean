import Pl0Kit.Text.Lines

/-!
# Quotations, conditionals and loops

How a text in one of the Forth dialects is read and run.  A quotation `[ q ]` is run by the word
behind it: `while` runs it and goes on as long as it leaves a true flag, and `if` or `if-true` takes
a flag first and runs it if this is true.  Retro 11 writes a conditional as `if q then`.  What all
other words do, and how a flag is taken, is left open.

* `Reading.step`  reads one word, with the open structures on a stack;
* `Reads ws cs`   the words `ws` are read as the code `cs`, wherever they stand;
* `Exec M cs`     runs of code, by the words of `M`;
* `Passes n`      a body and a test `n` times, with a true flag after each time but the last;
* `exec_loop`     a loop runs by passes, and there is always one.
-/

namespace Pl0Kit.Postfix

inductive Code where
  | word (w : String)
  | branch (body : List Code)
  | loop (body : List Code)

/-! ## reading -/

/-- what is open: a quotation, or a conditional up to `then` -/
inductive Opening where
  | quotation
  | conditional

structure Reading where
  /-- the code so far, inside the innermost open structure -/
  done : List Code := []
  /-- a quotation that has just been closed -/
  closed : Option (List Code) := none
  /-- the open structures, each with the code before it -/
  opens : List (List Code × Opening) := []

def Reading.step (r : Reading) (w : String) : Option Reading :=
  match r.closed with
  | some q =>
    if w = "while" then some { r with done := r.done ++ [.loop q], closed := none }
    else if w ∈ ["if", "if-true"] then some { r with done := r.done ++ [.branch q], closed := none }
    else none
  | none =>
    if w = "[" then some { done := [], opens := (r.done, .quotation) :: r.opens }
    else if w = "if" then some { done := [], opens := (r.done, .conditional) :: r.opens }
    else if w = "]" then
      match r.opens with
      | (before, .quotation) :: outer =>
        some { done := before, closed := some r.done, opens := outer }
      | _ => none
    else if w = "then" then
      match r.opens with
      | (before, .conditional) :: outer =>
        some { done := before ++ [.branch r.done], opens := outer }
      | _ => none
    else some { r with done := r.done ++ [.word w] }

/-- the code of some words in which everything is closed -/
def codeOf? (ws : List String) : Option (List Code) :=
  match ws.foldlM Reading.step {} with
  | some ⟨cs, none, []⟩ => some cs
  | _ => none

/-- the words `ws` are read as the code `cs`, wherever they stand -/
def Reads (ws : List String) (cs : List Code) : Prop :=
  ∀ done opens, ws.foldlM Reading.step ⟨done, none, opens⟩ = some ⟨done ++ cs, none, opens⟩

namespace Reads

variable {ws vs : List String} {cs ds : List Code}

theorem nil : Reads [] [] := by
  intro done opens
  rw [List.append_nil]
  rfl

theorem append (h : Reads ws cs) (h' : Reads vs ds) : Reads (ws ++ vs) (cs ++ ds) := by
  intro done opens
  rw [List.foldlM_append, h]
  exact (h' _ _).trans (by rw [List.append_assoc])

theorem word {w : String} (h : w ∉ ["[", "]", "if", "then"]) : Reads [w] [.word w] := by
  intro done opens
  simp only [List.mem_cons, List.not_mem_nil, or_false, not_or] at h
  simp [Reading.step, h]

theorem words (h : ∀ w ∈ ws, w ∉ ["[", "]", "if", "then"]) : Reads ws (ws.map .word) := by
  induction ws with
  | nil => exact nil
  | cons w ws ih =>
    obtain ⟨hw, hws⟩ := List.forall_mem_cons.1 h
    exact (word hw).append (ih hws)

/-- words behind one that opens a structure -/
theorem inside (h : Reads ws cs) (done : List Code) (opens : List (List Code × Opening))
    {w : String} {kind : Opening}
    (hw : Reading.step ⟨done, none, opens⟩ w = some ⟨[], none, (done, kind) :: opens⟩) :
    (w :: (ws ++ vs)).foldlM Reading.step ⟨done, none, opens⟩ =
      vs.foldlM Reading.step ⟨cs, none, (done, kind) :: opens⟩ := by
  rw [List.foldlM_cons, hw]
  show (ws ++ vs).foldlM Reading.step ⟨[], none, (done, kind) :: opens⟩ = _
  rw [List.foldlM_append, h]
  rfl

theorem loop (h : Reads ws cs) : Reads ("[" :: (ws ++ ["]", "while"])) [.loop cs] := by
  intro done opens
  rw [h.inside done opens (w := "[") rfl]
  rfl

theorem branch (h : Reads ws cs) : Reads ("if" :: (ws ++ ["then"])) [.branch cs] := by
  intro done opens
  rw [h.inside done opens (w := "if") rfl]
  rfl

theorem quotedBranch (h : Reads ws cs) {v : String} (hv : v = "if" ∨ v = "if-true") :
    Reads ("[" :: (ws ++ ["]", v])) [.branch cs] := by
  intro done opens
  rw [h.inside done opens (w := "[") rfl]
  rcases hv with rfl | rfl <;> rfl

theorem codeOf? (h : Reads ws cs) : codeOf? ws = some cs := by
  have hread : ws.foldlM Reading.step {} = some ⟨cs, none, []⟩ := h [] []
  rw [Postfix.codeOf?, hread]

end Reads

/-! ## running -/

/-- what ordinary words do to a state, and how a flag is taken from it -/
structure Dialect (σ : Type) where
  word : String → σ → σ → Prop
  flag : σ → Bool → σ → Prop

variable {σ : Type} {M : Dialect σ}

inductive Exec (M : Dialect σ) : List Code → σ → σ → Prop
  | nil {s : σ} : Exec M [] s s
  | word {w : String} {cs : List Code} {s t u : σ} : M.word w s t → Exec M cs t u →
      Exec M (.word w :: cs) s u
  | taken {body cs : List Code} {s t u v : σ} : M.flag s true t → Exec M body t u → Exec M cs u v →
      Exec M (.branch body :: cs) s v
  | skipped {body cs : List Code} {s t u : σ} : M.flag s false t → Exec M cs t u →
      Exec M (.branch body :: cs) s u
  | again {body cs : List Code} {s t u v : σ} : Exec M body s t → M.flag t true u →
      Exec M (.loop body :: cs) u v → Exec M (.loop body :: cs) s v
  | last {body cs : List Code} {s t u v : σ} : Exec M body s t → M.flag t false u → Exec M cs u v →
      Exec M (.loop body :: cs) s v

theorem Exec.append {cs ds : List Code} {s t u : σ} (h : Exec M cs s t) (h' : Exec M ds t u) :
    Exec M (cs ++ ds) s u := by
  induction h with
  | nil => exact h'
  | word hw _ ih => exact .word hw (ih h')
  | taken hf hb _ _ ih => exact .taken hf hb (ih h')
  | skipped hf _ ih => exact .skipped hf (ih h')
  | again hb hf _ _ ih => exact .again hb hf (ih h')
  | last hb hf _ _ ih => exact .last hb hf (ih h')

/-- code runs one part after the other -/
theorem exec_append {cs ds : List Code} {s u : σ} :
    Exec M (cs ++ ds) s u ↔ ∃ t, Exec M cs s t ∧ Exec M ds t u := by
  refine ⟨fun h => ?_, fun ⟨t, h, h'⟩ => h.append h'⟩
  generalize hall : cs ++ ds = all at h
  induction h generalizing cs with
  | nil =>
    obtain ⟨rfl, rfl⟩ := List.append_eq_nil_iff.1 hall
    exact ⟨_, .nil, .nil⟩
  | word hw hrest ih =>
    rcases List.append_eq_cons_iff.1 hall with ⟨rfl, rfl⟩ | ⟨cs', rfl, rfl⟩
    · exact ⟨_, .nil, .word hw hrest⟩
    · obtain ⟨t, h, h'⟩ := ih rfl
      exact ⟨t, .word hw h, h'⟩
  | taken hf hb hrest _ ih =>
    rcases List.append_eq_cons_iff.1 hall with ⟨rfl, rfl⟩ | ⟨cs', rfl, rfl⟩
    · exact ⟨_, .nil, .taken hf hb hrest⟩
    · obtain ⟨t, h, h'⟩ := ih rfl
      exact ⟨t, .taken hf hb h, h'⟩
  | skipped hf hrest ih =>
    rcases List.append_eq_cons_iff.1 hall with ⟨rfl, rfl⟩ | ⟨cs', rfl, rfl⟩
    · exact ⟨_, .nil, .skipped hf hrest⟩
    · obtain ⟨t, h, h'⟩ := ih rfl
      exact ⟨t, .skipped hf h, h'⟩
  | again hb hf hrest _ ih =>
    rcases List.append_eq_cons_iff.1 hall with ⟨rfl, rfl⟩ | ⟨cs', rfl, rfl⟩
    · exact ⟨_, .nil, .again hb hf hrest⟩
    · obtain ⟨t, h, h'⟩ := ih (show .loop _ :: cs' ++ ds = _ from rfl)
      exact ⟨t, .again hb hf h, h'⟩
  | last hb hf hrest _ ih =>
    rcases List.append_eq_cons_iff.1 hall with ⟨rfl, rfl⟩ | ⟨cs', rfl, rfl⟩
    · exact ⟨_, .nil, .last hb hf hrest⟩
    · obtain ⟨t, h, h'⟩ := ih rfl
      exact ⟨t, .last hb hf h, h'⟩

/-- a body and a test `n` times, where the flag is true after each time but the last -/
inductive Passes (body test : σ → σ → Prop) (flag : σ → Bool → σ → Prop) : Nat → σ → σ → Prop
  | last {s t u v : σ} : body s t → test t u → flag u false v → Passes body test flag 1 s v
  | again {n : Nat} {s t u v w : σ} : body s t → test t u → flag u true v →
      Passes body test flag n v w → Passes body test flag (n + 1) s w

/-- **A loop runs its body at least once**, whatever the test would have been before. -/
theorem exec_loop {body test : List Code} {s t : σ} : Exec M [.loop (body ++ test)] s t ↔
    ∃ n, Passes (Exec M body) (Exec M test) M.flag (n + 1) s t := by
  constructor
  · intro h
    generalize hcode : [Code.loop (body ++ test)] = cs at h
    induction h with
    | again hb hf _ _ ih =>
      cases hcode
      obtain ⟨n, hn⟩ := ih rfl
      obtain ⟨u, hbody, htest⟩ := exec_append.1 hb
      exact ⟨n + 1, .again hbody htest hf hn⟩
    | last hb hf hrest _ _ =>
      cases hcode
      cases hrest
      obtain ⟨u, hbody, htest⟩ := exec_append.1 hb
      exact ⟨0, .last hbody htest hf⟩
    | _ => cases hcode
  · rintro ⟨n, h⟩
    generalize n + 1 = k at h
    induction h with
    | last hbody htest hf => exact .last (hbody.append htest) hf .nil
    | again hbody htest hf _ ih => exact .again (hbody.append htest) hf ih

/-- runs of a text -/
def RunsText (M : Dialect σ) (text : String) (s t : σ) : Prop :=
  ∃ cs, codeOf? (Text.words text) = some cs ∧ Exec M cs s t

theorem Reads.runs {text : String} {cs : List Code} (h : Reads (Text.words text) cs) :
    RunsText M text = Exec M cs := by
  funext s t
  refine propext ⟨fun ⟨ds, hds, hrun⟩ => ?_, fun hrun => ⟨cs, h.codeOf?, hrun⟩⟩
  rw [h.codeOf?] at hds
  cases hds
  exact hrun

end Pl0Kit.Postfix
