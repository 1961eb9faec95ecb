import Pl0Kit.Site

/-!
# Outcomes of visits

The parser, the evaluator, the generators and the machine all run in `Act`: a state that survives a
fault.  `Act.exec` is the outcome of such a run together with the state after it, and the lemmas
here take a run apart into its parts:

* `exec_bind`      what a sequence does, by the outcome of its first part;
* `exec_bind_ok`   a sequence that answers, as two runs that answer;
* `exec_bind_error`  a sequence that fails, by the part that does;
* `exec_then`      a sequence whose first part is known to answer.

`ruleNames` has the names of the rules by which the nodes of a program are visited.
-/

namespace Pl0Kit.Act

variable {σ α β : Type}

/-- the outcome of a run and the state after it -/
def exec (p : Act σ α) (s : σ) : Except Fault α × σ := p.run.run s

@[simp] theorem exec_pure (a : α) (s : σ) : exec (pure a) s = (.ok a, s) := rfl

@[simp] theorem exec_get (s : σ) : exec (get : Act σ σ) s = (.ok s, s) := rfl

@[simp] theorem exec_set (s s' : σ) : exec (set s' : Act σ PUnit) s = (.ok ⟨⟩, s') := rfl

@[simp] theorem exec_modify (f : σ → σ) (s : σ) :
    exec (modify f : Act σ PUnit) s = (.ok ⟨⟩, f s) := rfl

theorem exec_bind (p : Act σ α) (f : α → Act σ β) (s : σ) :
    exec (p >>= f) s =
      match exec p s with
      | (.ok a, s') => exec (f a) s'
      | (.error e, s') => (.error e, s') := by
  show (ExceptT.bindCont f (p.run.run s).1).run (p.run.run s).2 = _
  rw [exec]
  rcases p.run.run s with ⟨_ | a, s'⟩ <;> rfl

/-- a sequence whose first part answers goes on with the answer -/
theorem exec_then {p : Act σ α} {f : α → Act σ β} {s s' : σ} {a : α}
    (h : exec p s = (.ok a, s')) : exec (p >>= f) s = exec (f a) s' := by
  rw [exec_bind, h]

/-- a sequence answers exactly if both of its parts do -/
theorem exec_bind_ok {p : Act σ α} {f : α → Act σ β} {s s'' : σ} {b : β} :
    exec (p >>= f) s = (.ok b, s'') ↔
      ∃ a s', exec p s = (.ok a, s') ∧ exec (f a) s' = (.ok b, s'') := by
  rw [exec_bind]
  rcases exec p s with ⟨e | a, s'⟩
  · constructor
    · intro h
      cases h
    · rintro ⟨_, _, h, _⟩
      cases h
  · constructor
    · intro h
      exact ⟨a, s', rfl, h⟩
    · rintro ⟨_, _, h, h'⟩
      cases h
      exact h'

/-- a sequence fails in its first part, or in its second part after the first one answered -/
theorem exec_bind_error {p : Act σ α} {f : α → Act σ β} {s s'' : σ} {e : Fault} :
    exec (p >>= f) s = (.error e, s'') ↔ exec p s = (.error e, s'') ∨
      ∃ a s', exec p s = (.ok a, s') ∧ exec (f a) s' = (.error e, s'') := by
  rw [exec_bind]
  rcases exec p s with ⟨e' | a, s'⟩
  · constructor
    · intro h
      cases h
      exact .inl rfl
    · rintro (h | ⟨_, _, h, _⟩)
      · cases h
        rfl
      · cases h
  · constructor
    · intro h
      exact .inr ⟨a, s', rfl, h⟩
    · rintro (h | ⟨_, _, h, h'⟩)
      · cases h
      · cases h
        exact h'

theorem exec_map (g : α → β) (p : Act σ α) (s : σ) :
    exec (g <$> p) s =
      match exec p s with
      | (.ok a, s') => (.ok (g a), s')
      | (.error e, s') => (.error e, s') := by
  rw [map_eq_pure_bind, exec_bind]
  rfl

end Pl0Kit.Act

namespace Pl0Kit

/-- nodes are visited by the rule that has their tag in lower case as its name -/
structure RuleNames : Prop where
  program : "PROGRAM".toLower = "program"
  block : "BLOCK".toLower = "block"
  consts : "CONSTANTS".toLower = "constants"
  vars : "VARIABLES".toLower = "variables"
  procs : "PROCEDURES".toLower = "procedures"
  assign : "SET".toLower = "set"
  call : "CALL".toLower = "call"
  sequence : "BEGIN".toLower = "begin"
  ifThen : "IF".toLower = "if"
  whileDo : "WHILE".toLower = "while"
  print : "PRINT".toLower = "print"
  odd : "ODD".toLower = "odd"
  condition : "CONDITION".toLower = "condition"
  expression : "EXPRESSION".toLower = "expression"
  term : "TERM".toLower = "term"
  name : "NAME".toLower = "name"
  number : "NUMBER".toLower = "number"

theorem ruleNames : RuleNames := by constructor <;> decide +kernel

end Pl0Kit
