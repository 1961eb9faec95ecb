import Pl0Kit.Parse
import Pl0Kit.Proofs.Evaluation
import Pl0Kit.Proofs.Tables

/-!
# Assignments

An assignment looks its name up and then writes into the variables of the frame where the name was
found, whatever it was found as.  Reading looks at the constants of a frame first, then at its
variables and then at its procedures.  So a procedure gives way to the value that is assigned to its
name, and a constant does not: the assignment answers, and the name still stands for the constant.

* `assignment_seen`    what a name stands for after an assignment to it.
-/

namespace Pl0Kit

/-! ## equality of values -/

namespace Value

mutual

theorem same_self : ∀ v : Value, v.same v = true
  | .none => rfl
  | .bool b => beq_self_eq_true b
  | .int n => beq_self_eq_true n
  | .str s => beq_self_eq_true s
  | .list xs => sameAll_self xs
  | .tuple xs => sameAll_self xs
  | .dict es => by
    rw [same, beq_self_eq_true, Bool.true_and]
    exact sameEntries_self es es fun _ => id
  | .procedure n b => by rw [same, same_self n, same_self b, Bool.true_and]
  | .token k v l p => by
    rw [same, same_self v]
    simp only [beq_self_eq_true, Bool.and_self]
  | .symbol k => beq_self_eq_true k

theorem sameAll_self : ∀ vs : List Value, same.sameAll vs vs = true
  | [] => rfl
  | v :: vs => by rw [same.sameAll, same_self v, sameAll_self vs, Bool.true_and]

theorem sameEntries_self : ∀ es ds : List (Value × Value), (∀ e ∈ es, e ∈ ds) →
    same.sameEntries es ds = true
  | [], _, _ => rfl
  | (k, v) :: es, ds, h => by
    obtain ⟨hfirst, hrest⟩ := List.forall_mem_cons.1 h
    have hany : ds.any (fun e => k.same e.1 && v.same e.2) = true := by
      refine List.any_eq_true.2 ⟨(k, v), hfirst, ?_⟩
      rw [same_self k, same_self v, Bool.true_and]
    rw [same.sameEntries, hany, sameEntries_self es ds hrest, Bool.true_and]

end

end Value

/-! ## writing to a frame -/

theorem Table.get?_put_self (t : Table) (k v : Value) : (t.put k v).get? k = some v := by
  induction t with
  | nil => simp [put, get?, Value.same_self]
  | cons e t ih =>
    obtain ⟨k', v'⟩ := e
    rw [put]
    by_cases hk : k'.same k = true
    · rw [if_pos hk, get?, List.find?_cons, hk]
      rfl
    · rw [if_neg hk, get?, List.find?_cons, Bool.eq_false_iff.2 hk]
      exact ih

/-- what stands in a frame after `v` was written where `w` stood: constants stay -/
def afterWrite (v : Value) : EntryKind × Value → EntryKind × Value
  | (.const, w) => (.const, w)
  | _ => (.var, v)

theorem Frame.lookup_update {f : Frame} {k : Value} {r : EntryKind × Value}
    (h : f.lookup k = some r) (v : Value) : (f.update k v).lookup k = some (afterWrite v r) := by
  have hvars : (f.update k v).vars.get? k = some v := Table.get?_put_self f.vars k v
  have hconsts : (f.update k v).consts.get? k = f.consts.get? k := rfl
  rw [Frame.lookup, hconsts, hvars]
  rw [Frame.lookup] at h
  cases hc : f.consts.get? k with
  | some c =>
    rw [hc] at h
    cases h
    rfl
  | none =>
    rw [hc] at h
    cases hv : f.vars.get? k with
    | some w =>
      rw [hv] at h
      cases h
      rfl
    | none =>
      rw [hv] at h
      cases hp : f.procs.get? k with
      | some w =>
        rw [hp] at h
        cases h
        rfl
      | none =>
        rw [hp] at h
        cases h

namespace Frames

variable {fs : Frames} {k w : Value} {kind : EntryKind} {n : Nat}

/-- a write goes to the frame where a lookup stops, and the next lookup stops there again -/
theorem find?_modify (h : fs.find? k = some (kind, w, n)) (v : Value) :
    Frames.find? k (fs.modify (n - 1) (·.update k v)) =
      some ((afterWrite v (kind, w)).1, (afterWrite v (kind, w)).2, n) := by
  induction fs generalizing n with
  | nil => cases h
  | cons f fs ih =>
    rw [find?] at h
    cases hl : f.lookup k with
    | some r =>
      rw [hl] at h
      cases h
      rw [Nat.sub_self, List.modify_zero_cons, find?, Frame.lookup_update hl]
    | none =>
      rw [hl] at h
      obtain ⟨⟨kind', w', m⟩, hr, he⟩ := Option.map_eq_some_iff.1 h
      cases he
      obtain ⟨m, rfl⟩ := find?_pos hr
      have hrest := ih hr
      rw [Nat.add_sub_cancel] at hrest
      rw [Nat.add_sub_cancel, List.modify_succ_cons, find?, hl, hrest]
      rfl

theorem find_ok (h : fs.find k = .ok (kind, w, n)) :
    fs.find? k = some (kind, w, n) ∧ k.isKey = true := by
  rw [find] at h
  split at h
  · cases h
  · rename_i hkey
    split at h
    · rename_i r hr
      cases h
      cases fs with
      | nil => cases hr
      | cons f fs => exact ⟨hr, by simpa using hkey⟩
    · cases h

theorem find_of_find? (hkey : k.isKey = true) (h : fs.find? k = some (kind, w, n)) :
    fs.find k = .ok (kind, w, n) := by
  rw [find, hkey, Bool.not_true, Bool.false_and, if_neg Bool.false_ne_true, h]

end Frames

namespace Evaluator

open Act

/-- a name that is evaluated gives what it stands for -/
theorem exec_visit_name (n : Nat) (x : Value) (s : Evaluator) :
    exec (visit (n + 2) (.tuple [.str "NAME", x])) s = (s.frames.seen x, s) := by
  have hlow : "NAME".toLower = "name" := by decide +kernel
  have hvisit : visit (n + 2) (.tuple [.str "NAME", x]) = (do
      let r ← find x
      pure r.2.1) := by
    show apply (n + 1) "NAME".toLower [.str "NAME", x] = _
    rw [hlow]
    rfl
  have hfind : exec (find x) s = (s.frames.find x, s) := rfl
  rw [hvisit, exec_bind, hfind, Frames.seen]
  cases s.frames.find x <;> rfl

/-- the parts of an assignment that answers -/
theorem apply_set_ok {n : Nat} {args : List Value} {target x e r : Value} {s s' : Evaluator}
    (htarget : args[1]? = some target) (hname : target.item 1 = .ok x) (hexpr : args[2]? = some e)
    (h : exec (apply (n + 1) "set" args) s = (.ok r, s')) :
    ∃ (a : Frame × Value) (s₁ : Evaluator) (kind : EntryKind) (w : Value) (k : Nat),
      exec (evaluate n e) s = (.ok a, s₁) ∧ s₁.frames.find x = .ok (kind, w, k) ∧
        s' = { s₁ with frames := s₁.frames.modify (k - 1) (·.update x a.2) } := by
  have hfirst : exec (arg args 1) s = (.ok target, s) := by
    rw [arg, htarget]
    rfl
  have hitem : exec (lift (target.item 1)) s = (.ok x, s) := by
    rw [hname]
    rfl
  have hsecond : exec (arg args 2) s = (.ok e, s) := by
    rw [arg, hexpr]
    rfl
  have hset : apply (n + 1) "set" args = (do
      let t ← arg args 1
      let x ← lift (t.item 1)
      let b ← arg args 2
      let a ← evaluate n b
      let q ← find x
      modify fun s => { s with frames := s.frames.modify (q.2.2 - 1) (·.update x a.2) }
      pure .none) := rfl
  rw [hset, exec_then hfirst, exec_then hitem, exec_then hsecond] at h
  obtain ⟨a, s₁, ha, h⟩ := exec_bind_ok.1 h
  obtain ⟨⟨kind, w, k⟩, s₂, hfind, h⟩ := exec_bind_ok.1 h
  have hfound : s₁.frames.find x = .ok (kind, w, k) := congrArg Prod.fst hfind
  obtain rfl : s₁ = s₂ := congrArg Prod.snd hfind
  cases h
  exact ⟨a, s₁, kind, w, k, ha, hfound, rfl⟩

/-- **What a name stands for after an assignment.**  Where an assignment of `v` answers, its name
had been found as something, and from then on the name stands for `v` as a variable of the frame
where it was found, unless it was found as a constant, which stays.  So `v` is seen exactly if the
name is no constant of another value. -/
theorem assignment_seen {n : Nat} {args : List Value} {target x e v r : Value} {f : Frame}
    {s s₁ s' : Evaluator} (htarget : args[1]? = some target) (hname : target.item 1 = .ok x)
    (hexpr : args[2]? = some e) (hvalue : exec (evaluate n e) s = (.ok (f, v), s₁))
    (hset : exec (apply (n + 1) "set" args) s = (.ok r, s')) :
    ∃ kind w k, s₁.frames.find x = .ok (kind, w, k) ∧
      s'.frames.find x = .ok (if kind = .const then (.const, w, k) else (.var, v, k)) ∧
      (s'.frames.seen x = .ok v ↔ (kind = .const → w = v)) ∧
      ∀ m, exec (visit (m + 2) (.tuple [.str "NAME", x])) s' = (s'.frames.seen x, s') := by
  obtain ⟨a, s₂, kind, w, k, ha, hfound, rfl⟩ := apply_set_ok htarget hname hexpr hset
  rw [hvalue] at ha
  cases ha
  obtain ⟨hfound?, hkey⟩ := Frames.find_ok hfound
  have hafter := Frames.find_of_find? hkey (Frames.find?_modify hfound? v)
  refine ⟨kind, w, k, hfound, ?_, ?_, fun m => exec_visit_name m x _⟩
  · rw [hafter]
    cases kind <;> rfl
  · rw [Frames.seen, hafter]
    cases kind <;> simp [afterWrite, Except.map]

/-- `x := 2` -/
def setTwo (x : String) : List Value := [.str "SET", nameValue x, .tuple [.str "NUMBER", .int 2]]

/-- two frames that know `p`: as a procedure, and further out as a variable -/
def procedureInside : Evaluator where
  frames :=
    [{ procs := [(.str "p", .procedure (.str "p") .none)] }, { vars := [(.str "p", .int 1)] }]

/-- a procedure gives way to a value that is assigned to its name -/
theorem setTwo_seen :
    ∃ r s', exec (apply 8 "set" (setTwo "p")) procedureInside = (.ok r, s') ∧
      s'.frames.find (.str "p") = .ok (.var, .int 2, 1) ∧
      s'.frames.seen (.str "p") = .ok (.int 2) := by
  have hvalue : exec (evaluate 7 (.tuple [.str "NUMBER", .int 2])) procedureInside =
      (.ok ({}, .int 2), procedureInside) := by with_unfolding_all rfl
  have hproc : procedureInside.frames.find (.str "p") =
      .ok (.proc, .procedure (.str "p") .none, 1) := by with_unfolding_all rfl
  obtain ⟨s', hset⟩ : ∃ s', exec (apply 8 "set" (setTwo "p")) procedureInside = (.ok .none, s') :=
    ⟨_, by with_unfolding_all rfl⟩
  obtain ⟨kind, w, k, hfound, hfind, hseen, -⟩ := assignment_seen rfl rfl rfl hvalue hset
  rw [hproc] at hfound
  cases hfound
  exact ⟨.none, s', hset, hfind, hseen.2 nofun⟩

/-- `CONST c = 1; BEGIN c := 2; ! c END.` -/
def assignConstant : Program :=
  ⟨.mk (some [("c", 1)]) none []
    (.block [.assign "c" (.mk none (.mk (.number 2) []) []),
      .print (.mk none (.mk (.name "c") []) [])])⟩

/-- **An assignment to a constant is not seen**, though it answers: the name still stands for the
constant, and the program prints 1. -/
theorem constant_hides_assignment :
    (parseText "const c = 1; begin c := 2; ! c end.").1 = .ok assignConstant ∧
      (run 40 assignConstant.toValue {}).2.out = "1\n" ∧
      ∃ r s', exec (apply 8 "set" (setTwo "c")) ⟨[{ consts := [(.str "c", .int 1)] }], ""⟩ =
        (.ok r, s') ∧
        s'.frames.find (.str "c") = .ok (.const, .int 1, 1) ∧
        s'.frames.seen (.str "c") = .ok (.int 1) := by
  refine ⟨?_, ?_, .none, ⟨[{ consts := [(.str "c", .int 1)], vars := [(.str "c", .int 2)] }], ""⟩,
    ?_, ?_, ?_⟩ <;> with_unfolding_all rfl

end Evaluator

end Pl0Kit
