import Mathlib.Logic.Function.Basic
import Pl0Kit.Frame
import Pl0Kit.Ordered

/-!
# Tables of names

What a table answers after an entry was put in, tables that have one entry for each of some names
(`Table.ofNames`), tables that know the same names under two renamings (`TableAlike`), and where the
answer of a lookup through frames comes from.
-/

namespace Pl0Kit

/-! ## entries -/

theorem Value.same_str {v : Value} {x : String} : v.same (.str x) = true ↔ v = .str x := by
  cases v <;> simp [Value.same]

namespace Table

theorem mem_of_get? {t : Table} {k v : Value} (h : t.get? k = some v) : ∃ e ∈ t, e.2 = v := by
  obtain ⟨e, he, hv⟩ := Option.map_eq_some_iff.1 h
  exact ⟨e, List.mem_of_find?_eq_some he, hv⟩

theorem mem_put {t : Table} {k v : Value} {e : Value × Value} (h : e ∈ t.put k v) :
    e ∈ t ∨ e.2 = v := by
  induction t with
  | nil =>
    obtain rfl := List.mem_singleton.1 h
    exact .inr rfl
  | cons e' t ih =>
    rw [put] at h
    split at h
    · rcases List.mem_cons.1 h with rfl | h
      · exact .inr rfl
      · exact .inl (List.mem_cons_of_mem _ h)
    · rcases List.mem_cons.1 h with rfl | h
      · exact .inl List.mem_cons_self
      · exact (ih h).imp_left (List.mem_cons_of_mem _)

theorem get?_cons (k v : Value) (t : Table) (x : String) :
    Table.get? ((k, v) :: t) (.str x) = if k.same (.str x) then some v else t.get? (.str x) := by
  rw [get?, List.find?_cons]
  cases hk : k.same (.str x) with
  | true => rfl
  | false => rfl

theorem get?_put (t : Table) (k : String) (v : Value) (x : String) :
    (t.put (.str k) v).get? (.str x) = if x = k then some v else t.get? (.str x) := by
  have hsame : (Value.str k).same (.str x) = decide (x = k) := by
    rw [Bool.eq_iff_iff, Value.same_str, Value.str.injEq, decide_eq_true_iff]
    exact eq_comm
  induction t with
  | nil => simp [put, get?_cons, hsame]
  | cons e t ih =>
    obtain ⟨k', v'⟩ := e
    rw [put, get?_cons]
    by_cases hk : k'.same (.str k) = true
    · obtain rfl := Value.same_str.1 hk
      rw [if_pos hk, get?_cons, hsame]
      by_cases hx : x = k <;> simp [hx]
    · rw [if_neg hk, get?_cons, ih]
      by_cases hx : x = k
      · rw [if_pos hx, hx, if_neg hk, if_pos rfl]
      · rw [if_neg hx, if_neg hx]

/-! ## one entry for each name -/

/-- a table with a value for each of some names -/
def ofNames (xs : List String) (g : String → Value) : Table := xs.map fun x => (.str x, g x)

theorem get?_ofNames (xs : List String) (g : String → Value) (x : String) :
    (ofNames xs g).get? (.str x) = if x ∈ xs then some (g x) else none := by
  induction xs with
  | nil => rfl
  | cons y xs ih =>
    refine (get?_cons _ _ (ofNames xs g) x).trans ?_
    rw [ih]
    by_cases hy : y = x
    · simp [Value.same, hy]
    · have hyx : ¬ x = y := fun h => hy h.symm
      simp [Value.same, hy, hyx]

theorem ofNames_update {xs : List String} {x : String} (hx : x ∉ xs) (g : String → Value)
    (v : Value) : ofNames xs (Function.update g x v) = ofNames xs g := by
  refine List.map_congr_left fun y hy => ?_
  have hyx : y ≠ x := fun h => hx (h ▸ hy)
  rw [Function.update_of_ne hyx]

theorem put_ofNames {xs : List String} (hnd : xs.Nodup) {x : String} (hx : x ∈ xs)
    (g : String → Value) (v : Value) :
    (ofNames xs g).put (.str x) v = ofNames xs (Function.update g x v) := by
  induction xs with
  | nil => cases hx
  | cons y xs ih =>
    obtain ⟨hy, hnd'⟩ := List.nodup_cons.1 hnd
    rw [ofNames, List.map_cons, put, ofNames, List.map_cons]
    by_cases hyx : y = x
    · subst hyx
      rw [if_pos (Value.same_str.2 rfl), Function.update_self]
      exact congrArg _ (ofNames_update hy g v).symm
    · have hmem : x ∈ xs := (List.mem_cons.1 hx).resolve_left fun h => hyx h.symm
      rw [if_neg fun h => hyx (Value.str.inj (Value.same_str.1 h)), Function.update_of_ne hyx]
      exact congrArg _ (ih hnd' hmem)

theorem put_ofNames_new {xs : List String} {x : String} (hx : x ∉ xs) (g : String → Value)
    (v : Value) : (ofNames xs g).put (.str x) v = ofNames (xs ++ [x]) (Function.update g x v) := by
  induction xs with
  | nil => simp [ofNames, put]
  | cons y xs ih =>
    rw [List.mem_cons, not_or] at hx
    have hyx : y ≠ x := fun h => hx.1 h.symm
    rw [ofNames, List.map_cons, put, if_neg fun h => hyx (Value.str.inj (Value.same_str.1 h)),
      List.cons_append, ofNames, List.map_cons, Function.update_of_ne hyx]
    exact congrArg _ (ih hx.2)

/-- a name that is put in comes to the end, unless it is known -/
theorem put_ofNames_addNew {xs : List String} (hnd : xs.Nodup) (x : String) (g : String → Value)
    (v : Value) :
    (ofNames xs g).put (.str x) v = ofNames (addNew xs x) (Function.update g x v) := by
  rw [addNew]
  by_cases hx : x ∈ xs
  · rw [put_ofNames hnd hx, if_pos (List.contains_iff_mem.2 hx)]
  · rw [put_ofNames_new hx, if_neg fun h => hx (List.contains_iff_mem.1 h)]

end Table

/-! ## tables under renamings -/

section Renamings

variable {r s : String → String}

/-- two tables that know the same names, under the renamings `r` and `s` -/
def TableAlike (r s : String → String) (R : Value → Value → Prop) (t u : Table) : Prop :=
  ∀ x, Option.Rel R (t.get? (.str (r x))) (u.get? (.str (s x)))

theorem TableAlike.put {R : Value → Value → Prop} {t u : Table} (hr : r.Injective)
    (hs : s.Injective) (h : TableAlike r s R t u) (y : String) {v w : Value} (hvw : R v w) :
    TableAlike r s R (t.put (.str (r y)) v) (u.put (.str (s y)) w) := by
  intro x
  rw [Table.get?_put, Table.get?_put]
  by_cases hx : x = y
  · rw [if_pos (congrArg r hx), if_pos (congrArg s hx)]
    exact .some hvw
  · rw [if_neg fun he => hx (hr he), if_neg fun he => hx (hs he)]
    exact h x

end Renamings

/-! ## lookups -/

theorem Frame.lookup_kind (f : Frame) (k : Value) :
    (f.lookup k).map Prod.fst =
      if (f.consts.get? k).isSome then some .const
      else if (f.vars.get? k).isSome then some .var
      else if (f.procs.get? k).isSome then some .proc
      else none := by
  rw [Frame.lookup]
  cases f.consts.get? k <;> cases f.vars.get? k <;> cases f.procs.get? k <;> rfl

theorem Frames.lookup_of_find? {k v : Value} {kind : EntryKind} {n : Nat} {fs : Frames}
    (h : fs.find? k = some (kind, v, n)) : ∃ f ∈ fs, f.lookup k = some (kind, v) := by
  induction fs generalizing n with
  | nil => cases h
  | cons f fs ih =>
    rw [Frames.find?] at h
    split at h
    · rename_i r hr
      cases h
      exact ⟨f, List.mem_cons_self, hr⟩
    · obtain ⟨⟨kind', v', n'⟩, hr, he⟩ := Option.map_eq_some_iff.1 h
      cases he
      obtain ⟨g, hg, hl⟩ := ih hr
      exact ⟨g, List.mem_cons_of_mem f hg, hl⟩

/-- frames are counted from one -/
theorem Frames.find?_pos {k v : Value} {kind : EntryKind} {n : Nat} {fs : Frames}
    (h : fs.find? k = some (kind, v, n)) : ∃ m, n = m + 1 := by
  cases fs with
  | nil => cases h
  | cons f fs =>
    rw [Frames.find?] at h
    split at h
    · cases h
      exact ⟨0, rfl⟩
    · obtain ⟨r, -, he⟩ := Option.map_eq_some_iff.1 h
      cases he
      exact ⟨_, rfl⟩

/-- the table that an entry comes from -/
def Frame.table (f : Frame) : EntryKind → Table
  | .const => f.consts
  | .var => f.vars
  | .proc => f.procs

/-- a frame with an entry put into one of its tables -/
def Frame.enter (f : Frame) : EntryKind → Value → Value → Frame
  | .const => f.define
  | .var => f.update
  | .proc => f.declare

theorem Frame.table_enter (f : Frame) (kind kind' : EntryKind) (k v : Value) :
    (f.enter kind k v).table kind' =
      if kind' = kind then (f.table kind).put k v else f.table kind' := by
  cases kind <;> cases kind' <;> rfl

theorem Frame.get?_of_lookup {f : Frame} {k v : Value} {kind : EntryKind}
    (h : f.lookup k = some (kind, v)) : (f.table kind).get? k = some v := by
  rw [Frame.lookup] at h
  split at h
  · cases h
    assumption
  · split at h
    · cases h
      assumption
    · split at h
      · cases h
        assumption
      · cases h

theorem Frame.get?_of_lookup_none {f : Frame} {k : Value} (h : f.lookup k = none)
    (kind : EntryKind) : (f.table kind).get? k = none := by
  rw [Frame.lookup] at h
  split at h
  · cases h
  · split at h
    · cases h
    · split at h
      · cases h
      · cases kind <;> assumption

end Pl0Kit
